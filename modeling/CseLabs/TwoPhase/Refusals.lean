import CseLabs.TwoPhase.Deadlock
import CseLabs.TwoPhase.Leftovers

namespace CseLabs.TwoPhase

open Ydb Relation

section Search

variable {dependency : Tid → Tid → Bool} {transId : Tid}

theorem anyM_eq_true {α : Type*} {f : α → Option Bool} {list : List α} (h : list.anyM f = some true) :
    ∃ x ∈ list, f x = some true := by
  induction list with
  | nil => cases h
  | cons first rest ih =>
      simp only [List.anyM, Option.bind_eq_bind, Option.bind_eq_some_iff] at h
      obtain ⟨found, hfirst, hrest⟩ := h
      cases found with
      | true => exact ⟨first, List.mem_cons_self, hfirst⟩
      | false =>
          obtain ⟨x, hx, hfound⟩ := ih hrest
          exact ⟨x, List.mem_cons_of_mem first hx, hfound⟩

-- A search that ends with true has found a path.
theorem dfs_eq_true {fuel : Nat} {id1 id2 : Tid} (h : dfs dependency transId fuel id1 id2 = some true) :
    ReflTransGen (fun x y => dependency x y = true) id1 id2 := by
  induction fuel generalizing id1 with
  | zero => cases h
  | succ fuel ih =>
      simp only [dfs] at h
      split at h
      · rename_i heq
        rw [heq]
      · obtain ⟨mid, -, hmid⟩ := anyM_eq_true h
        split at hmid
        · rename_i hedge
          exact .head hedge.1 (ih hmid)
        · cases hmid

end Search

section Genuine

variable {s next : State} {id : Tid}

-- An edge is a wait that is pending, but for those on a transaction that commits at this moment:
-- it gives its locks back before it clears its edges.
def Genuine (s : State) : Prop := ∀ x y, s.Edge x y → s.Waits x y ∨ (s.pc y).isCommitting = true

-- A step of a transaction that does not wait for a lock somebody holds, and adds no edge.
theorem Genuine.move (h : Genuine s) (id : Tid) (hedge : ∀ x y, next.Edge x y → s.Edge x y)
    (hpc : ∀ x, x ≠ id → next.pc x = s.pc x) (hlc : ∀ ino y, y ≠ id → s.lc ino = some y → next.lc ino = some y)
    (hself : ∀ y, ¬s.Waits id y)
    (hto : ∀ x, x ≠ id → next.Edge x id → s.Waits x id → next.Waits x id ∨ (next.pc id).isCommitting = true)
    (hcommit : (s.pc id).isCommitting = true → (next.pc id).isCommitting = true ∨ ∀ x, ¬next.Edge x id) :
    Genuine next := by
  intro x y hxy
  rcases h x y (hedge x y hxy) with hwaits | hcommitting
  · have hx : x ≠ id := by
      rintro rfl
      exact hself y hwaits
    by_cases hy : y = id
    · subst hy
      exact hto x hx hxy hwaits
    · obtain ⟨op, hop, hholder⟩ := hwaits
      exact .inl ⟨op, (hpc x hx).trans hop, hlc op.ino y hy hholder⟩
  · by_cases hy : y = id
    · subst hy
      rcases hcommit hcommitting with hstill | hnone
      · exact .inr hstill
      · exact absurd hxy (hnone x)
    · rw [hpc y hy]
      exact .inr hcommitting

-- The call of a transaction goes on; it does not wait, does not commit, and keeps its locks.
theorem Genuine.setPc (h : Genuine s) {pc : Pc} (hold : ∀ op, s.pc id ≠ .acquiring op)
    (hnot : (s.pc id).isCommitting = false) : Genuine (s.setPc id pc) := by
  refine h.move id (fun _ _ hxy => hxy) (fun x hx => setPc_pc_of_ne _ _ _ _ hx) (fun _ _ _ hlc => hlc) ?_ ?_ ?_
  · rintro y ⟨op, hop, -⟩
    exact hold op hop
  · rintro x hx - ⟨op, hop, hlc⟩
    exact .inl ⟨op, (setPc_pc_of_ne _ _ _ _ hx).trans hop, hlc⟩
  · intro hcommitting
    rw [hnot] at hcommitting
    cases hcommitting

theorem Genuine.reply (h : Genuine s) (hold : ∀ op, s.pc id ≠ .acquiring op)
    (hnot : (s.pc id).isCommitting = false) (call : Call) (status : Status) (value : Str) :
    Genuine (s.reply id call status value) :=
  show Genuine (s.setPc id .idle) from h.setPc hold hnot

theorem Genuine.start (ec : Slot → Str) : Genuine (start ec) := by
  intro x y hxy
  cases hxy

theorem Genuine.receive (h : Genuine s) {call : Call} (hs : receive s id call = some next) : Genuine next := by
  obtain ⟨hidle, hcases⟩ := receive_cases hs
  have hold : ∀ op, s.pc id ≠ .acquiring op := by simp [hidle]
  have hnot : (s.pc id).isCommitting = false := by rw [hidle]; rfl
  rcases hcases with ⟨-, rfl⟩ | ⟨info, hinfo, ⟨op, rfl, haccess⟩ | ⟨-, rfl⟩ | ⟨-, rfl⟩⟩
  · exact h.reply hold hnot _ _ _
  · rcases access_cases hinfo haccess with ⟨-, rfl⟩ | ⟨-, old, -, rfl⟩
    · exact h.setPc hold hnot
    · have hset : ∀ info, Genuine (s.setInfo id info) := fun _ => h
      exact (hset _).reply hold hnot _ _ _
  · exact h.setPc hold hnot
  · exact h.setPc hold hnot

-- Nobody commits while DEPENDENCY is free.
theorem Genuine.waits (h : Genuine s) (hlocks : Locks s) (hfree : s.lcDependency = none) {x y : Tid}
    (hxy : s.Edge x y) : s.Waits x y := by
  refine (h x y hxy).resolve_right fun hcommitting => ?_
  have hloop : (s.pc y).inLoop = true := by
    cases hpc : s.pc y with
    | committing rest => rfl
    | _ => rw [hpc] at hcommitting; cases hcommitting
  have hturn := (hlocks y).turn hloop
  rw [hfree] at hturn
  cases hturn

-- The holder of a slot in lock_handlers has its lock.
theorem Locks.lc_of_handler (h : Locks s) {ino : Slot} (hino : s.lockHandlers ino = some id) : s.lc ino = some id :=
  ((h id).held ino).mpr (recorded_subset_owned (((h id).handled ino).mp hino))

theorem Genuine.runCheckCycle (h : Genuine s) (hlocks : Locks s) (hs : runCheckCycle s id = some next) :
    Genuine next := by
  obtain ⟨op, cycle, mid, hpc, hfree, hcheck, rfl⟩ := runCheckCycle_cases hs
  have hold : ∀ op, s.pc id ≠ .acquiring op := by simp [hpc]
  have hnot : (s.pc id).isCommitting = false := by rw [hpc]; rfl
  rcases checkCycle_cases hcheck with ⟨-, rfl, rfl⟩ | ⟨holder, hholder, -, -, rfl⟩
  · exact h.setPc hold hnot
  · cases cycle with
    | true => exact h.setPc hold hnot
    | false =>
        -- the new edge is the wait that starts now
        intro x y hxy
        by_cases hx : x = id
        · subst hx
          by_cases hy : y = holder
          · subst hy
            exact .inl ⟨op, setPc_pc_self _ _ _, hlocks.lc_of_handler hholder⟩
          · have hxy : s.Edge x y := by simpa [State.Edge, hy] using hxy
            obtain ⟨op', hop', -⟩ := h.waits hlocks hfree hxy
            exact absurd hop' (hold op')
        · have hxy : s.Edge x y := by simpa [State.Edge, hx] using hxy
          obtain ⟨op', hop', hlc⟩ := h.waits hlocks hfree hxy
          exact .inl ⟨op', (setPc_pc_of_ne _ _ _ _ hx).trans hop', hlc⟩

theorem Genuine.acquire (h : Genuine s) (hs : acquire s id = some next) : Genuine next := by
  obtain ⟨op, hpc, hfree, rfl⟩ := acquire_cases hs
  have hlc : ∀ ino y, s.lc ino = some y → Function.update s.lc op.ino (some id) ino = some y := by
    intro ino y hy
    have hne : ino ≠ op.ino := by
      rintro rfl
      rw [hfree] at hy
      cases hy
    rwa [Function.update_of_ne hne]
  refine h.move id (fun _ _ hxy => hxy) (fun x hx => setPc_pc_of_ne _ _ _ _ hx) (fun ino y _ => hlc ino y) ?_ ?_ ?_
  · rintro y ⟨op', hop', hy⟩
    rw [hpc] at hop'
    cases hop'
    rw [hfree] at hy
    cases hy
  · rintro x hx - ⟨op', hop', hy⟩
    exact .inl ⟨op', (setPc_pc_of_ne _ _ _ _ hx).trans hop', hlc _ _ hy⟩
  · intro hcommitting
    rw [hpc] at hcommitting
    cases hcommitting

theorem Genuine.record (h : Genuine s) (hs : record s id = some next) : Genuine next := by
  obtain ⟨op, info, hpc, -, rfl⟩ := record_cases hs
  have hset : ∀ handlers info, Genuine ({ s with lockHandlers := handlers }.setInfo id info) := fun _ _ => h
  exact (hset _ _).reply (by simp [hpc]) (by simp [hpc, Pc.isCommitting]) _ _ _

-- A transaction that does not wait, all of whose edges go.
theorem Genuine.clear (h : Genuine s) (hbooks : Books s) (hold : ∀ op, s.pc id ≠ .acquiring op)
    (hdep : next.dependency = (s.clearDependency id).dependency) (hpc : ∀ x, x ≠ id → next.pc x = s.pc x)
    (hlc : next.lc = s.lc) : Genuine next := by
  have hedge : ∀ x y, next.Edge x y → s.Edge x y ∧ x ≠ id ∧ y ≠ id := by
    intro x y hxy
    rw [State.Edge, hdep] at hxy
    exact hbooks.edges.clearDependency_of_live hbooks.locks id x y hxy
  refine h.move id (fun x y hxy => (hedge x y hxy).1) hpc (fun _ _ _ hy => by rw [hlc]; exact hy) ?_ ?_ ?_
  · rintro y ⟨op, hop, -⟩
    exact hold op hop
  · intro x _ hx _
    exact absurd rfl (hedge x id hx).2.2
  · intro _
    exact .inr fun x hx => (hedge x id hx).2.2 rfl

-- A lock is given back by somebody that nobody has an edge to, or that commits.
theorem Genuine.unlock (h : Genuine s) {pc : Pc} {ino : Slot} (hold : (s.pc id).inLoop = true)
    (hmine : s.lc ino = some id) (hpc : (s.pc id).isCommitting = pc.isCommitting)
    (hedges : pc.isCommitting = true ∨ ∀ x, ¬s.Edge x id) : Genuine ((s.unlock ino).setPc id pc) := by
  refine h.move id (fun _ _ hxy => hxy) (fun x hx => setPc_pc_of_ne _ _ _ _ hx) ?_ ?_ ?_ ?_
  · intro slot y hy hlc
    have hne : slot ≠ ino := by
      rintro rfl
      rw [hmine] at hlc
      exact hy (Option.some.inj hlc).symm
    simpa [State.unlock, hne] using hlc
  · rintro y ⟨op, hop, -⟩
    rw [hop] at hold
    cases hold
  · intro x _ hx _
    rcases hedges with hcommitting | hnone
    · exact .inr (by rw [setPc_pc_self]; exact hcommitting)
    · exact absurd hx (hnone x)
  · intro hcommitting
    exact .inl (by rw [setPc_pc_self, ← hpc]; exact hcommitting)

theorem Genuine.step (h : Genuine s) (hbooks : Books s) {event : Event} (hs : Step s event next) : Genuine next := by
  unfold Step TwoPhase.step at hs
  cases event with
  | begin =>
      obtain rfl := begin_cases hs
      exact h
  | call id call => exact h.receive hs
  | checkCycle id => exact h.runCheckCycle hbooks.locks hs
  | acquire id => exact h.acquire hs
  | record id => exact h.record hs
  | releaseStart id =>
      obtain ⟨call, info, hpc, -, -, rfl⟩ := releaseStart_cases hs
      exact h.clear hbooks (by simp [hpc]) rfl (fun x hx => setPc_pc_of_ne _ _ _ _ hx) rfl
  | releaseEntry id =>
      obtain ⟨call, ino, rest, hpc, rfl⟩ := releaseEntry_cases hs
      have hloop : (s.pc id).inLoop = true := by rw [hpc]; rfl
      have hmine : s.lc ino = some id := by
        rw [(hbooks.locks id).held, hpc]
        simp [Pc.owned, Pc.recorded]
      refine h.unlock hloop hmine (by rw [hpc]; rfl) (.inr fun x hx => ?_)
      rw [State.Edge, (hbooks.edges.cleared id call _ hpc x).2] at hx
      cases hx
  | releaseEnd id =>
      obtain ⟨call, hpc, rfl⟩ := releaseEnd_cases hs
      have hset : Genuine ({ s with lcDependency := none }.setInfo id none) := h
      exact hset.reply (by simp [hpc]) (by simp [hpc, Pc.isCommitting]) _ _ _
  | commitStart id =>
      obtain ⟨info, hpc, -, -, rfl⟩ := commitStart_cases hs
      have hset : Genuine { s with lcDependency := some id } := h
      exact hset.setPc (by simp [hpc]) (by simp [hpc, Pc.isCommitting])
  | commitEntry id =>
      obtain ⟨ino, value, rest, hpc, rfl⟩ := commitEntry_cases hs
      have hset : Genuine { s with ec := Function.update s.ec ino (if value = REMOVESTRING then [] else value) } := h
      have hmine : s.lc ino = some id := by
        rw [(hbooks.locks id).held, hpc]
        simp [Pc.owned, Pc.recorded]
      exact hset.unlock (by rw [hpc]; rfl) hmine (by rw [hpc]; rfl) (.inl rfl)
  | commitEnd id =>
      obtain ⟨hpc, rfl⟩ := commitEnd_cases hs
      exact h.clear hbooks (by simp [hpc]) rfl (fun x hx => reply_pc_of_ne _ _ _ _ _ _ hx) rfl

end Genuine

section Refusals

variable {s next : State} {id : Tid} {ec : Slot → Str} {events : List Event}

-- The slot is locked by somebody else, who waits, directly or through others, for a lock of id.
def Deadlocked (s : State) (id : Tid) (ino : Slot) : Prop :=
  ∃ holder, s.lc ino = some holder ∧ holder ≠ id ∧ s.transactionInfos holder ≠ none ∧ TransGen s.Waits holder id

-- checkCycle says true to one that would close a cycle.
theorem Genuine.deadlocked (h : Genuine s) (hbooks : Books s) {op : Op} {mid : State} (hpc : s.pc id = .checking op)
    (hfree : s.lcDependency = none) (hcheck : checkCycle s id op.ino = some (true, mid)) :
    Deadlocked s id op.ino := by
  rcases checkCycle_cases hcheck with ⟨-, hfalse, -⟩ | ⟨holder, hholder, -, hdfs, -⟩
  · cases hfalse
  · have hne : holder ≠ id := by
      rintro rfl
      have hmem := ((hbooks.locks holder).handled op.ino).mp hholder
      rw [hpc] at hmem
      exact (hbooks.locks holder).new op (by rw [hpc]; rfl) hmem
    have hwaits : (fun x y => s.dependency x y = true) ≤ s.Waits := fun x y hxy => h.waits hbooks.locks hfree hxy
    have hpath : ReflTransGen s.Waits holder id := ReflTransGen.mono hwaits _ _ (dfs_eq_true hdfs)
    refine ⟨holder, hbooks.locks.lc_of_handler hholder, hne, hbooks.locks.live_of_handler hholder, ?_⟩
    exact (reflTransGen_iff_eq_or_transGen.mp hpath).resolve_left fun heq => hne heq.symm

-- The run has come through a check of this call that was refused, and then there was a deadlock.
def RefusedIn (ec : Slot → Str) (events : List Event) (id : Tid) (call : Call) : Prop :=
  ∃ before after s next op, events = before ++ .checkCycle id :: after ∧
    Run (Guarded Bounded Step) (· = start ec) before s ∧ Step s (.checkCycle id) next ∧
      s.pc id = .checking op ∧ next.pc id = .aborting op.call ∧ op.call = call ∧ Deadlocked s id op.ino

theorem RefusedIn.snoc {call : Call} (h : RefusedIn ec events id call) (event : Event) :
    RefusedIn ec (events ++ [event]) id call := by
  obtain ⟨before, after, s, next, op, rfl, hrest⟩ := h
  exact ⟨before, after ++ [event], s, next, op, by simp, hrest⟩

-- The call is going to be answered with ABORT.
def Pc.refused (call : Call) : Pc → Prop
  | .aborting call' => call' = call ∧ call ≠ .abort
  | .releasing call' _ => call' = call ∧ call ≠ .abort
  | _ => False

structure Explained (explains : Tid → Call → Prop) (s : State) : Prop where
  refused : ∀ id call, (s.pc id).refused call → explains id call
  replies : ∀ reply ∈ s.replies, reply.status = .ABORT → explains reply.id reply.call

theorem Explained.setPc {explains : Tid → Call → Prop} (h : Explained explains s) {pc : Pc}
    (hpc : ∀ call, pc.refused call → explains id call) : Explained explains (s.setPc id pc) where
  refused x call hx := by
    by_cases he : x = id
    · subst he
      rw [setPc_pc_self] at hx
      exact hpc call hx
    · rw [setPc_pc_of_ne _ _ _ _ he] at hx
      exact h.refused x call hx
  replies := h.replies

theorem Explained.reply {explains : Tid → Call → Prop} (h : Explained explains s) {call : Call} {status : Status}
    {value : Str} (hstatus : status = .ABORT → explains id call) :
    Explained explains (s.reply id call status value) where
  refused := by
    have hidle : Explained explains (s.setPc id .idle) := h.setPc fun _ hrefused => hrefused.elim
    exact hidle.refused
  replies r hr hr' := by
    rcases List.mem_append.mp hr with hr | hr
    · exact h.replies r hr hr'
    · rw [List.mem_singleton.mp hr] at hr' ⊢
      exact hstatus hr'

theorem Explained.mono {explains explains' : Tid → Call → Prop} (h : Explained explains s)
    (hmore : ∀ id call, explains id call → explains' id call) : Explained explains' s :=
  ⟨fun id call hrefused => hmore id call (h.refused id call hrefused),
    fun reply hreply hstatus => hmore _ _ (h.replies reply hreply hstatus)⟩

-- A refused check explains itself, and every other step only passes the refusal on.
theorem Explained.step {event : Event} {explains : Tid → Call → Prop} (h : Explained explains s)
    (hcheck : ∀ id op, event = .checkCycle id → s.pc id = .checking op → next.pc id = .aborting op.call →
      explains id op.call) (hs : Step s event next) : Explained explains next := by
  unfold Step TwoPhase.step at hs
  cases event with
  | begin =>
      obtain rfl := begin_cases hs
      exact ⟨h.refused, h.replies⟩
  | call id call =>
      obtain ⟨-, ⟨-, rfl⟩ | ⟨info, hinfo, ⟨op, rfl, haccess⟩ | ⟨-, rfl⟩ | ⟨-, rfl⟩⟩⟩ := receive_cases hs
      · exact h.reply (by simp)
      · rcases access_cases hinfo haccess with ⟨-, rfl⟩ | ⟨-, old, -, rfl⟩
        · exact h.setPc fun _ hrefused => hrefused.elim
        · have hset : ∀ info, Explained explains (s.setInfo id info) := fun _ => ⟨h.refused, h.replies⟩
          exact (hset _).reply (by simp)
      · exact h.setPc fun _ hrefused => hrefused.elim
      · refine h.setPc fun call hrefused => ?_
        exact absurd hrefused.1.symm hrefused.2
  | checkCycle id =>
      obtain ⟨op, cycle, mid, hpc, -, hcycle, rfl⟩ := runCheckCycle_cases hs
      obtain ⟨dependency, rfl⟩ := checkCycle_eq_setDependency hcycle
      have hset : Explained explains { s with dependency := dependency } := ⟨h.refused, h.replies⟩
      refine hset.setPc fun call hrefused => ?_
      cases cycle with
      | true =>
          obtain ⟨rfl, -⟩ := hrefused
          exact hcheck id op rfl hpc (setPc_pc_self _ _ _)
      | false => exact hrefused.elim
  | acquire id =>
      obtain ⟨op, -, -, rfl⟩ := acquire_cases hs
      have hset : ∀ lc, Explained explains { s with lc := lc } := fun _ => ⟨h.refused, h.replies⟩
      exact (hset _).setPc fun _ hrefused => hrefused.elim
  | record id =>
      obtain ⟨op, info, -, -, rfl⟩ := record_cases hs
      have hset : ∀ handlers info, Explained explains ({ s with lockHandlers := handlers }.setInfo id info) :=
        fun _ _ => ⟨h.refused, h.replies⟩
      exact (hset _ _).reply (by simp)
  | releaseStart id =>
      obtain ⟨call, info, hpc, -, -, rfl⟩ := releaseStart_cases hs
      have hset : Explained explains { s.clearDependency id with lcDependency := some id } := ⟨h.refused, h.replies⟩
      refine hset.setPc fun call' hrefused => h.refused id call' ?_
      rw [hpc]
      exact hrefused
  | releaseEntry id =>
      obtain ⟨call, ino, rest, hpc, rfl⟩ := releaseEntry_cases hs
      have hset : Explained explains (s.unlock ino) := ⟨h.refused, h.replies⟩
      refine hset.setPc fun call' hrefused => h.refused id call' ?_
      rw [hpc]
      exact hrefused
  | releaseEnd id =>
      obtain ⟨call, hpc, rfl⟩ := releaseEnd_cases hs
      have hset : Explained explains ({ s with lcDependency := none }.setInfo id none) := ⟨h.refused, h.replies⟩
      refine hset.reply fun hstatus => h.refused id call ?_
      rw [hpc]
      refine ⟨rfl, fun habort => ?_⟩
      rw [if_pos habort] at hstatus
      cases hstatus
  | commitStart id =>
      obtain ⟨info, -, -, -, rfl⟩ := commitStart_cases hs
      have hset : Explained explains { s with lcDependency := some id } := ⟨h.refused, h.replies⟩
      exact hset.setPc fun _ hrefused => hrefused.elim
  | commitEntry id =>
      obtain ⟨ino, value, rest, -, rfl⟩ := commitEntry_cases hs
      have hset : ∀ ec, Explained explains ({ s with ec := ec }.unlock ino) := fun _ => ⟨h.refused, h.replies⟩
      exact (hset _).setPc fun _ hrefused => hrefused.elim
  | commitEnd id =>
      obtain ⟨-, rfl⟩ := commitEnd_cases hs
      have hset : Explained explains ({ s.clearDependency id with lcDependency := none }.setInfo id none) :=
        ⟨h.refused, h.replies⟩
      exact hset.reply (by simp)

theorem explained_of_run (hrun : Run (Guarded Bounded Step) (· = start ec) events s) :
    Books s ∧ Genuine s ∧ Explained (RefusedIn ec events) s := by
  induction hrun with
  | start hinit =>
      obtain rfl := hinit
      exact ⟨.start ec, .start ec, fun _ _ hrefused => hrefused.elim, fun _ hreply => absurd hreply List.not_mem_nil⟩
  | @extend events s next event run hstep ih =>
      obtain ⟨hbooks, hgenuine, hexplained⟩ := ih
      refine ⟨hbooks.step hstep.2, hgenuine.step hbooks hstep.2, ?_⟩
      have hold := hexplained.mono fun id call hrefused => hrefused.snoc event
      refine hold.step (fun id op hevent hpc hrefused => ?_) hstep.2
      subst hevent
      refine ⟨events, [], s, next, op, rfl, run, hstep.2, hpc, hrefused, rfl, ?_⟩
      obtain ⟨op', cycle, mid, hpc', hfree, hcycle, rfl⟩ := runCheckCycle_cases hstep.2
      obtain rfl : op = op' := by
        rw [hpc] at hpc'
        exact Pc.checking.inj hpc'
      cases cycle with
      | true => exact hgenuine.deadlocked hbooks hpc hfree hcycle
      | false =>
          rw [setPc_pc_self] at hrefused
          cases hrefused

-- Every ABORT was decided in a deadlock.
theorem abort_only_in_deadlock (ec : Slot → Str) (events : List Event) (s : State)
    (hrun : Run (Guarded Bounded Step) (· = start ec) events s) :
    ∀ reply ∈ s.replies, reply.status = .ABORT → RefusedIn ec events reply.id reply.call :=
  (explained_of_run hrun).2.2.replies

-- Transaction 1 has the slot of one key and waits for the other; transaction 0 has that one and
-- asks for the first.
def closingCycle : List Event :=
  [.begin, .begin, .call 0 (.get []), .checkCycle 0, .acquire 0, .record 0,
    .call 1 (.get [1]), .checkCycle 1, .acquire 1, .record 1, .call 1 (.get []), .checkCycle 1,
    .call 0 (.get [1]), .checkCycle 0, .releaseStart 0, .releaseEntry 0, .releaseEnd 0]

theorem abort_only_in_deadlock_closing : RefusedIn (fun _ => []) closingCycle 0 (.get [1]) := by
  have hlast : (execute (fun s event => if Bounded s event then step s event else none)
      (start fun _ => []) closingCycle).map (fun s => s.replies.getLast?) =
      some (some ⟨0, .get [1], .ABORT, []⟩) := by
    decide +kernel
  obtain ⟨s, hs, hreply⟩ := Option.map_eq_some_iff.mp hlast
  have hrun : Run (Guarded Bounded Step) (· = start fun _ => []) ([] ++ closingCycle) s :=
    Run.executed (.start rfl) hs
  exact abort_only_in_deadlock _ closingCycle s hrun _ (List.mem_of_getLast? hreply) rfl

end Refusals

end CseLabs.TwoPhase
