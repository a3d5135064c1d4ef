import CseLabs.TwoPhase.Locks
import CseLabs.WaitGraph

namespace CseLabs.TwoPhase

open Ydb Relation WaitGraph

-- `id` is blocked in lc->acquire on a slot whose lock `other` holds.
def State.Waits (s : State) (id other : Tid) : Prop :=
  ∃ op, s.pc id = .acquiring op ∧ s.lc op.ino = some other

def State.Edge (s : State) (id other : Tid) : Prop := s.dependency id other = true

section Search

variable {dependency : Tid → Tid → Bool} {transId : Tid}

theorem anyM_eq_false {α : Type*} {f : α → Option Bool} {list : List α} (h : list.anyM f = some false) :
    ∀ x ∈ list, f x = some false := by
  induction list with
  | nil => simp
  | cons first rest ih =>
      simp only [List.anyM, Option.bind_eq_bind, Option.bind_eq_some_iff] at h
      obtain ⟨found, hfirst, hrest⟩ := h
      cases found with
      | true => cases hrest
      | false =>
          intro x hx
          rcases List.mem_cons.mp hx with rfl | hx
          · exact hfirst
          · exact ih hrest x hx

-- A search that ends with false has tried every path.
theorem dfs_eq_false {fuel : Nat} {id1 id2 : Tid} (hedge : ∀ x y, dependency x y = true → x ≠ y ∧ y < transId)
    (h : dfs dependency transId fuel id1 id2 = some false) :
    ¬ ReflTransGen (fun x y => dependency x y = true) id1 id2 := by
  induction fuel generalizing id1 with
  | zero => cases h
  | succ fuel ih =>
      simp only [dfs] at h
      split at h
      · cases h
      · rename_i hne
        intro hpath
        rcases hpath.cases_head with rfl | ⟨mid, hfirst, hrest⟩
        · exact hne rfl
        · obtain ⟨hself, hlt⟩ := hedge id1 mid hfirst
          have hmid := anyM_eq_false h mid (List.mem_range.mpr hlt)
          rw [if_pos ⟨hfirst, hself.symm⟩] at hmid
          exact ih hmid hrest

end Search

def Pc.isReleasing : Pc → Bool
  | .releasing _ _ => true
  | _ => false

structure Recorded (s : State) : Prop where
  edges : ∀ x y, s.dependency x y = true → x ≠ y ∧ y < s.transId
  acyclic : Acyclic s.Edge
  waits : ∀ id other, s.Waits id other → (s.pc other).isReleasing = false → s.Edge id other

-- The steps after which dependency would not show who waits for whom: a lock that is
-- handed over while another transaction waits for it, and a check of a slot that
-- somebody holds without being in lock_handlers yet.
def Safe (s : State) : Event → Prop
  | .acquire id => ∀ op other op', s.pc id = .acquiring op → other ≠ id → s.pc other = .acquiring op' →
      op'.ino ≠ op.ino
  | .checkCycle id => ∀ op, s.pc id = .checking op → s.lc op.ino = none ∨ s.lockHandlers op.ino ≠ none
  | _ => True

variable {s next : State} {id : Tid}

-- A step that lets nobody wait anew and takes no edge away.
theorem Recorded.keep (h : Recorded s) (htid : s.transId ≤ next.transId)
    (hdep : next.dependency = s.dependency)
    (hwaits : ∀ x y, next.Waits x y → s.Waits x y)
    (hpc : ∀ x, (next.pc x).isReleasing = false → (s.pc x).isReleasing = false ∨
      ∀ ino, next.lc ino ≠ some x) : Recorded next := by
  have hedge : next.Edge = s.Edge := by
    funext x y
    simp [State.Edge, hdep]
  constructor
  · intro x y hxy
    rw [hdep] at hxy
    obtain ⟨hne, hlt⟩ := h.edges x y hxy
    exact ⟨hne, hlt.trans_le htid⟩
  · rw [hedge]
    exact h.acyclic
  · intro x y hw hrel
    rw [hedge]
    rcases hpc y hrel with hold | hnone
    · exact h.waits x y (hwaits x y hw) hold
    · obtain ⟨op, -, hlc⟩ := hw
      exact absurd hlc (hnone op.ino)

-- The call of a transaction moves on, outside lc->acquire and release_locks.
theorem Recorded.setPc (h : Recorded s) {pc : Pc} (hold : (s.pc id).isReleasing = false)
    (hnew : ∀ op, pc ≠ .acquiring op) : Recorded (s.setPc id pc) := by
  refine h.keep le_rfl rfl ?_ ?_
  · rintro x y ⟨op, hpc, hlc⟩
    by_cases he : x = id
    · subst he
      rw [setPc_pc_self] at hpc
      exact absurd hpc (hnew op)
    · rw [setPc_pc_of_ne s id x pc he] at hpc
      exact ⟨op, hpc, hlc⟩
  · intro x hrel
    by_cases he : x = id
    · exact .inl (he ▸ hold)
    · rw [setPc_pc_of_ne s id x pc he] at hrel
      exact .inl hrel

theorem Recorded.reply (h : Recorded s) (hold : (s.pc id).isReleasing = false) (call : Call)
    (status : Status) (value : Str) : Recorded (s.reply id call status value) := by
  have hpc : Recorded (s.setPc id .idle) := h.setPc hold (by simp)
  exact ⟨hpc.edges, hpc.acyclic, hpc.waits⟩

theorem Recorded.setInfo (h : Recorded s) (info : Option Transaction) : Recorded (s.setInfo id info) :=
  ⟨h.edges, h.acyclic, h.waits⟩

theorem Recorded.begin (h : Recorded s) (hs : transactionBegin s = some next) : Recorded next := by
  obtain rfl := begin_cases hs
  exact h.keep (Nat.le_succ _) rfl (fun _ _ hw => hw) (fun _ hrel => .inl hrel)

theorem Recorded.receive (h : Recorded s) {call : Call} (hs : receive s id call = some next) :
    Recorded next := by
  obtain ⟨hidle, hcases⟩ := receive_cases hs
  have hold : (s.pc id).isReleasing = false := by rw [hidle]; rfl
  rcases hcases with ⟨-, rfl⟩ | ⟨info, hinfo, ⟨op, rfl, haccess⟩ | ⟨-, rfl⟩ | ⟨-, rfl⟩⟩
  · exact h.reply hold _ _ _
  · rcases access_cases hinfo haccess with ⟨-, rfl⟩ | ⟨-, old, -, rfl⟩
    · exact h.setPc hold (by simp)
    · exact (h.setInfo _).reply hold _ _ _
  · exact h.setPc hold (by simp)
  · exact h.setPc hold (by simp)

-- The transaction starts to wait, with its edge if the slot is held.
theorem Recorded.runCheckCycle (h : Recorded s) (hlocks : Locks s) (hsafe : Safe s (.checkCycle id))
    (hs : runCheckCycle s id = some next) : Recorded next := by
  obtain ⟨op, cycle, mid, hpc, -, hcheck, rfl⟩ := runCheckCycle_cases hs
  have hold : (s.pc id).isReleasing = false := by rw [hpc]; rfl
  rcases checkCycle_cases hcheck with ⟨hnone, rfl, rfl⟩ | ⟨id2, hsome, hlt, hdfs, rfl⟩
  · -- nobody holds the slot
    have hfree : mid.lc op.ino = none := (hsafe op hpc).resolve_right (fun hn => hn hnone)
    refine h.keep le_rfl rfl ?_ ?_
    · rintro x y ⟨op', hx, hlc⟩
      by_cases he : x = id
      · subst he
        simp only [Bool.false_eq_true, if_false, setPc_pc_self, Pc.acquiring.injEq] at hx
        subst hx
        rw [setPc_lc, hfree] at hlc
        cases hlc
      · rw [setPc_pc_of_ne _ id x _ he] at hx
        exact ⟨op', hx, hlc⟩
    · intro x hrel
      by_cases he : x = id
      · exact .inl (he ▸ hold)
      · rw [setPc_pc_of_ne _ id x _ he] at hrel
        exact .inl hrel
  · cases cycle with
    | true => exact h.setPc hold (by simp)
    | false =>
        have hreach := dfs_eq_false h.edges hdfs
        have hne : id ≠ id2 := by
          rintro rfl
          exact hreach .refl
        have hholder : s.lc op.ino = some id2 :=
          ((hlocks id2).held op.ino).mpr (recorded_subset_owned (((hlocks id2).handled op.ino).mp hsome))
        have hnew : ∀ x y, Function.update s.dependency id (Function.update (s.dependency id) id2 true) x y =
            true ↔ s.dependency x y = true ∨ x = id ∧ y = id2 := by
          intro x y
          by_cases hx : x = id
          · subst hx
            by_cases hy : y = id2 <;> simp [hy]
          · simp [hx]
        constructor
        · intro x y hxy
          rcases (hnew x y).mp hxy with hxy | ⟨rfl, rfl⟩
          · exact h.edges x y hxy
          · exact ⟨hne, hlt⟩
        · refine (h.acyclic.add hreach).mono ?_
          intro x y hxy
          exact (hnew x y).mp hxy
        · rintro x y ⟨op', hx, hlc⟩ hrel
          refine (hnew x y).mpr ?_
          by_cases he : x = id
          · subst he
            simp only [Bool.false_eq_true, if_false, setPc_pc_self, Pc.acquiring.injEq] at hx
            subst hx
            have hlc : s.lc op.ino = some y := hlc
            rw [hholder] at hlc
            exact .inr ⟨rfl, (Option.some.inj hlc).symm⟩
          · left
            have hx : s.pc x = .acquiring op' := by
              rw [setPc_pc_of_ne _ id x _ he] at hx
              exact hx
            refine h.waits x y ⟨op', hx, hlc⟩ ?_
            by_cases hy : y = id
            · exact hy ▸ hold
            · rw [setPc_pc_of_ne _ id y _ hy] at hrel
              exact hrel

theorem Recorded.acquire (h : Recorded s) (hsafe : Safe s (.acquire id)) (hs : acquire s id = some next) :
    Recorded next := by
  obtain ⟨op, hpc, -, rfl⟩ := acquire_cases hs
  refine h.keep le_rfl rfl ?_ ?_
  · rintro x y ⟨op', hx, hlc⟩
    by_cases he : x = id
    · subst he
      rw [setPc_pc_self] at hx
      cases hx
    · have hx : s.pc x = .acquiring op' := by
        rw [setPc_pc_of_ne _ id x _ he] at hx
        exact hx
      have hino := hsafe op x op' hpc he hx
      refine ⟨op', hx, ?_⟩
      rw [setPc_lc] at hlc
      simpa [hino] using hlc
  · intro x hrel
    by_cases he : x = id
    · exact .inl (by rw [he, hpc]; rfl)
    · rw [setPc_pc_of_ne _ id x _ he] at hrel
      exact .inl hrel

theorem Recorded.record (h : Recorded s) (hs : record s id = some next) : Recorded next := by
  obtain ⟨op, info, hpc, -, rfl⟩ := record_cases hs
  have hold : (s.pc id).isReleasing = false := by rw [hpc]; rfl
  have hmid : Recorded { s with lockHandlers := Function.update s.lockHandlers op.ino (some id) } :=
    ⟨h.edges, h.acyclic, h.waits⟩
  exact (hmid.setInfo _).reply hold _ _ _

-- The edges of a transaction that does not wait, and for which nobody waits from now
-- on, can go.
theorem Recorded.clear (h : Recorded s) (htid : next.transId = s.transId)
    (hdep : next.dependency = (s.clearDependency id).dependency)
    (hwaits : ∀ x y, next.Waits x y → s.Waits x y) (hself : ∀ op, s.pc id ≠ .acquiring op)
    (hpc : ∀ x, x ≠ id → next.pc x = s.pc x)
    (hid : (next.pc id).isReleasing = true ∨ ∀ ino, next.lc ino ≠ some id) : Recorded next := by
  have hsub : ∀ x y, next.dependency x y = true → s.dependency x y = true := by
    intro x y hxy
    rw [hdep] at hxy
    simp only [State.clearDependency] at hxy
    split at hxy
    · cases hxy
    · exact hxy
  constructor
  · intro x y hxy
    rw [htid]
    exact h.edges x y (hsub x y hxy)
  · exact h.acyclic.mono hsub
  · intro x y hw hrel
    have hold := hwaits x y hw
    have hx : x ≠ id := by
      rintro rfl
      obtain ⟨op, hp, -⟩ := hold
      exact hself op hp
    have hy : y ≠ id := by
      rintro rfl
      rcases hid with hid | hid
      · rw [hid] at hrel
        cases hrel
      · obtain ⟨op, -, hlc⟩ := hw
        exact hid op.ino hlc
    have hedge := h.waits x y hold (hpc y hy ▸ hrel)
    unfold State.Edge
    rw [hdep]
    simpa [State.clearDependency, State.Edge, hx, hy] using hedge

theorem Recorded.releaseStart (h : Recorded s) (hs : releaseStart s id = some next) : Recorded next := by
  obtain ⟨call, info, hpc, -, -, rfl⟩ := releaseStart_cases hs
  refine h.clear rfl rfl ?_ (by simp [hpc]) (fun x he => setPc_pc_of_ne _ id x _ he)
    (.inl (by rw [setPc_pc_self]; rfl))
  rintro x y ⟨op, hx, hlc⟩
  by_cases he : x = id
  · subst he
    rw [setPc_pc_self] at hx
    cases hx
  · rw [setPc_pc_of_ne _ id x _ he] at hx
    exact ⟨op, hx, hlc⟩

-- One lock less is held.
theorem Recorded.unlock (h : Recorded s) {pc : Pc} (ino : Slot) (hnew : ∀ op, pc ≠ .acquiring op)
    (hold : pc.isReleasing = false → (s.pc id).isReleasing = false) :
    Recorded ((s.unlock ino).setPc id pc) := by
  refine h.keep le_rfl rfl ?_ ?_
  · rintro x y ⟨op, hx, hlc⟩
    by_cases he : x = id
    · subst he
      rw [setPc_pc_self] at hx
      exact absurd hx (hnew op)
    · rw [setPc_pc_of_ne _ id x _ he] at hx
      refine ⟨op, hx, ?_⟩
      rw [setPc_lc] at hlc
      by_cases hi : op.ino = ino
      · simp [State.unlock, hi] at hlc
      · simpa [State.unlock, hi] using hlc
  · intro x hrel
    by_cases he : x = id
    · subst he
      rw [setPc_pc_self] at hrel
      exact .inl (hold hrel)
    · rw [setPc_pc_of_ne _ id x _ he] at hrel
      exact .inl hrel

theorem Recorded.commitEntry (h : Recorded s) (hs : commitEntry s id = some next) : Recorded next := by
  obtain ⟨ino, value, rest, hpc, rfl⟩ := commitEntry_cases hs
  have hmid : Recorded { s with
      ec := Function.update s.ec ino (if value = REMOVESTRING then [] else value) } :=
    ⟨h.edges, h.acyclic, h.waits⟩
  exact hmid.unlock ino (by simp) (fun _ => by rw [hpc]; rfl)

-- At the end of its loop a transaction holds nothing.
theorem Locks.nothing_held (h : Locks s) (hloop : (s.pc id).inLoop = true)
    (hslots : (s.pc id).loopSlots = []) (ino : Slot) : s.lc ino ≠ some id := by
  intro hlc
  have howned := ((h id).held ino).mp hlc
  rw [(inLoop_slots hloop (s.locks id)).1, hslots] at howned
  simp at howned

theorem Recorded.releaseEnd (h : Recorded s) (hlocks : Locks s) (hs : releaseEnd s id = some next) :
    Recorded next := by
  obtain ⟨call, hpc, rfl⟩ := releaseEnd_cases hs
  have hnothing := hlocks.nothing_held (show (s.pc id).inLoop = true by rw [hpc]; rfl)
    (by rw [hpc]; rfl)
  refine h.keep le_rfl rfl ?_ ?_
  · rintro x y ⟨op, hx, hlc⟩
    by_cases he : x = id
    · subst he
      rw [reply_pc_self] at hx
      cases hx
    · rw [reply_pc_of_ne _ id x _ _ _ he] at hx
      exact ⟨op, hx, hlc⟩
  · intro x hrel
    by_cases he : x = id
    · exact .inr (he ▸ hnothing)
    · rw [reply_pc_of_ne _ id x _ _ _ he] at hrel
      exact .inl hrel

theorem Recorded.commitEnd (h : Recorded s) (hlocks : Locks s) (hs : commitEnd s id = some next) :
    Recorded next := by
  obtain ⟨hpc, rfl⟩ := commitEnd_cases hs
  have hnothing := hlocks.nothing_held (show (s.pc id).inLoop = true by rw [hpc]; rfl)
    (by rw [hpc]; rfl)
  refine h.clear rfl rfl ?_ (by simp [hpc]) (fun x he => reply_pc_of_ne _ id x _ _ _ he) (.inr hnothing)
  rintro x y ⟨op, hx, hlc⟩
  by_cases he : x = id
  · subst he
    rw [reply_pc_self] at hx
    cases hx
  · rw [reply_pc_of_ne _ id x _ _ _ he] at hx
    exact ⟨op, hx, hlc⟩

theorem Recorded.step (h : Recorded s) (hlocks : Locks s) {event : Event} (hsafe : Safe s event)
    (hs : Step s event next) : Recorded next := by
  unfold Step TwoPhase.step at hs
  cases event with
  | begin => exact h.begin hs
  | call id call => exact h.receive hs
  | checkCycle id => exact h.runCheckCycle hlocks hsafe hs
  | acquire id => exact h.acquire hsafe hs
  | record id => exact h.record hs
  | releaseStart id => exact h.releaseStart hs
  | releaseEntry id =>
      simp only [TwoPhase.releaseEntry] at hs
      split at hs
      · cases hs
        exact h.unlock _ (by simp) (by simp [Pc.isReleasing])
      · cases hs
  | releaseEnd id => exact h.releaseEnd hlocks hs
  | commitStart id =>
      simp only [TwoPhase.commitStart] at hs
      split at hs
      · rename_i hpc
        simp only [Option.bind_eq_bind, Option.bind_eq_some_iff] at hs
        obtain ⟨info, -, hs⟩ := hs
        split at hs
        · cases hs
          have hmid : Recorded { s with lcDependency := some id } := ⟨h.edges, h.acyclic, h.waits⟩
          exact hmid.setPc (by rw [hpc]; rfl) (by simp)
        · cases hs
      · cases hs
  | commitEntry id => exact h.commitEntry hs
  | commitEnd id => exact h.commitEnd hlocks hs

theorem Recorded.start (ec : Slot → Str) : Recorded (start ec) where
  edges := by simp [TwoPhase.start]
  acyclic := by
    intro node hcycle
    obtain ⟨next, hfirst, -⟩ := TransGen.head'_iff.mp hcycle
    simp [State.Edge, TwoPhase.start] at hfirst
  waits := by
    rintro x y ⟨op, hpc, -⟩
    simp [TwoPhase.start] at hpc

theorem Recorded.no_cycle (h : Recorded s) : Acyclic s.Waits := by
  refine h.acyclic.waits ?_
  rintro x y z hxy ⟨op, hpc, hlc⟩
  exact h.waits x y hxy (by rw [hpc]; rfl)

theorem no_deadlock_of_safe (ec : Slot → Str) (s : State)
    (hr : Reachable (Guarded (fun s event => Bounded s event ∧ Safe s event) Step) (· = start ec) s)
    (id : Tid) : ¬ TransGen s.Waits id id := by
  have hinv : Locks s ∧ Recorded s := by
    refine hr.invariant (fun s => Locks s ∧ Recorded s) ?_ ?_
    · rintro s rfl
      exact ⟨Locks.start ec, Recorded.start ec⟩
    · rintro s event next ⟨hlocks, hrec⟩ ⟨⟨-, hsafe⟩, hs⟩
      exact ⟨hlocks.step hs, hrec.step hlocks hsafe hs⟩
  exact hinv.2.no_cycle id

-- Transaction 1 waits for the slot that transaction 0 has read.
theorem no_deadlock_of_safe_waiting : ∃ s : State, s.Waits 1 0 ∧ ¬ TransGen s.Waits 1 1 := by
  have hstart : Reachable (Guarded (fun s event => Bounded s event ∧ Safe s event) Step)
      (· = start fun _ => []) (start fun _ => []) := .start rfl
  have hbegun := (hstart.guarded .begin ⟨by decide, trivial⟩ rfl).guarded .begin ⟨by decide, trivial⟩ rfl
  have hchecked := (hbegun.guarded (.call 0 (.get [])) ⟨by simp [Bounded], trivial⟩ rfl).guarded
    (.checkCycle 0) ⟨by simp [Bounded], fun _ _ => .inl rfl⟩ rfl
  have hheld := (hchecked.guarded (.acquire 0) ⟨by simp [Bounded], by
      intro op other op' _ hne hpc
      simp [State.setPc, State.setInfo, start, hne] at hpc⟩ rfl).guarded (.record 0)
    ⟨by simp [Bounded], trivial⟩ rfl
  have hwaiting := (hheld.guarded (.call 1 (.get [])) ⟨by simp [Bounded], trivial⟩ rfl).guarded
    (.checkCycle 1) ⟨by simp [Bounded], by
      intro op hpc
      cases hpc
      exact .inr (by decide)⟩ rfl
  exact ⟨_, ⟨.get [], rfl, rfl⟩, no_deadlock_of_safe _ _ hwaiting 1⟩

-- Both transactions check the slot of the empty key while it is free, so that neither
-- gets an edge. Transaction 1 already has the slot of the other key.
def crossing : List Event :=
  [.begin, .begin, .call 1 (.get [1]), .checkCycle 1, .acquire 1, .record 1,
    .call 0 (.get []), .checkCycle 0, .call 1 (.get []), .checkCycle 1, .acquire 0, .record 0,
    .call 0 (.get [1]), .checkCycle 0]

theorem deadlock_reachable :
    ∃ s, Reachable (Guarded Bounded Step) (· = start fun _ => []) s ∧ TransGen s.Waits 0 0 := by
  have hrun : (execute (fun s event => if Bounded s event then step s event else none)
      (start fun _ => []) crossing).map
        (fun s => (s.pc 0, s.pc 1, s.lc (hash []), s.lc (hash [1]))) =
      some (.acquiring (.get [1]), .acquiring (.get []), some 0, some 1) := by
    decide +kernel
  obtain ⟨s, hs, hfields⟩ := Option.map_eq_some_iff.mp hrun
  simp only [Prod.mk.injEq] at hfields
  obtain ⟨h0, h1, hempty, hother⟩ := hfields
  have hstart : Reachable (Guarded Bounded Step) (· = start fun _ => []) (start fun _ => []) := .start rfl
  have h01 : s.Waits 0 1 := ⟨_, h0, hother⟩
  have h10 : s.Waits 1 0 := ⟨_, h1, hempty⟩
  exact ⟨s, hstart.executed hs, .tail (.single h01) h10⟩

end CseLabs.TwoPhase
