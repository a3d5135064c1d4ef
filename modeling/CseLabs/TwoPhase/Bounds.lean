import CseLabs.TwoPhase.Clients

namespace CseLabs.TwoPhase

open Ydb

-- The cells dependency[x][y] that dfs reads, in order. A search that has not come to
-- its end within the fuel reads these and more.
def dfsAccesses (dependency : Tid → Tid → Bool) (transId : Tid) : Nat → Tid → Tid → List (Tid × Tid)
  | 0, _, _ => []
  | fuel + 1, id1, id2 =>
      if id1 = id2 then []
      else (List.range transId).foldr (fun i rest =>
        (id1, i) :: if dependency id1 i ∧ i ≠ id1 then
          dfsAccesses dependency transId fuel i id2 ++
            if dfs dependency transId fuel i id2 = some false then rest else []
        else rest) []

-- The loop that clears the row and the column of a transaction.
def clearAccesses (transId id : Tid) : List (Tid × Tid) :=
  (List.range transId).flatMap fun i => [(id, i), (i, id)]

-- The cells that the server reads or writes in a step.
def State.cells (s : State) (fuel : Nat) : Event → List (Tid × Tid)
  | .checkCycle id =>
      match s.pc id with
      | .checking op =>
          match s.lockHandlers op.ino with
          | none => []
          | some id2 =>
              if id2 < s.transId then
                dfsAccesses s.dependency s.transId fuel id2 id ++
                  if dfs s.dependency s.transId fuel id2 id = some false then [(id, id2)] else []
              else []
      | _ => []
  | .releaseStart id =>
      match s.pc id with
      | .aborting _ => clearAccesses s.transId id
      | _ => []
  | .commitEnd id =>
      match s.pc id with
      | .committing [] => clearAccesses s.transId id
      | _ => []
  | _ => []

def InBounds (cell : Tid × Tid) : Prop := cell.1 < INODE_NUM ∧ cell.2 < INODE_NUM

section Cells

variable {dependency : Tid → Tid → Bool} {transId id id1 id2 : Tid} {fuel : Nat} {cell : Tid × Tid}

-- The search goes from transactions that have begun to transactions that have begun.
theorem lt_of_mem_dfsAccesses (hid : id1 < transId)
    (h : cell ∈ dfsAccesses dependency transId fuel id1 id2) : cell.1 < transId ∧ cell.2 < transId := by
  induction fuel generalizing id1 with
  | zero => cases h
  | succ fuel ih =>
      simp only [dfsAccesses] at h
      split at h
      · cases h
      · have hrange : ∀ i ∈ List.range transId, i < transId := fun i hi => List.mem_range.mp hi
        generalize List.range transId = range at h hrange
        induction range with
        | nil => cases h
        | cons first rest ihrest =>
            have hfirst := hrange first (by simp)
            have hrest := fun hmem => ihrest hmem fun i hi => hrange i (List.mem_cons_of_mem _ hi)
            rcases List.mem_cons.mp h with rfl | hmem
            · exact ⟨hid, hfirst⟩
            · split at hmem
              · rcases List.mem_append.mp hmem with hdeep | htail
                · exact ih hfirst hdeep
                · split at htail
                  · exact hrest htail
                  · cases htail
              · exact hrest hmem

theorem lt_of_mem_clearAccesses (hid : id < transId) (h : cell ∈ clearAccesses transId id) :
    cell.1 < transId ∧ cell.2 < transId := by
  simp only [clearAccesses, List.mem_flatMap, List.mem_range, List.mem_cons, List.not_mem_nil,
    or_false] at h
  obtain ⟨i, hi, rfl | rfl⟩ := h
  · exact ⟨hid, hi⟩
  · exact ⟨hi, hid⟩

end Cells

variable {s : State} {fuel : Nat} {event : Event} {cell : Tid × Tid}

theorem Locks.lt_of_busy (h : Locks s) {id : Tid} (hpc : s.pc id ≠ .idle) : id < s.transId :=
  (h id).born ((h id).busy hpc)

theorem Locks.lt_of_mem_cells (h : Locks s) (hcell : cell ∈ s.cells fuel event) :
    cell.1 < s.transId ∧ cell.2 < s.transId := by
  unfold State.cells at hcell
  split at hcell
  · rename_i id
    split at hcell
    · rename_i op hpc
      have hid : id < s.transId := h.lt_of_busy (by simp [hpc])
      split at hcell
      · cases hcell
      · rename_i id2 hhandler
        split at hcell
        · rename_i hlt
          rcases List.mem_append.mp hcell with hsearch | hedge
          · exact lt_of_mem_dfsAccesses hlt hsearch
          · split at hedge
            · obtain rfl := List.mem_singleton.mp hedge
              exact ⟨hid, hlt⟩
            · cases hedge
        · cases hcell
    · cases hcell
  · rename_i id
    split at hcell
    · rename_i call hpc
      exact lt_of_mem_clearAccesses (h.lt_of_busy (by simp [hpc])) hcell
    · cases hcell
  · rename_i id
    split at hcell
    · rename_i hpc
      exact lt_of_mem_clearAccesses (h.lt_of_busy (by simp [hpc])) hcell
    · cases hcell
  · cases hcell

-- At most INODE_NUM transactions are begun in all.
def Fits (s : State) (event : Event) : Prop := event = .begin → s.transId < INODE_NUM

instance (s : State) (event : Event) : Decidable (Fits s event) :=
  inferInstanceAs (Decidable (event = .begin → s.transId < INODE_NUM))

theorem transId_of_serving {next : State} (id : Tid) (hserves : ∀ call, event.serves id call = true)
    (hs : step s event = some next) : next.transId = s.transId := by
  have hcall : s.pc id ≠ .idle → (s.pc id).call = some ((s.pc id).call.getD .commit) := by
    intro hpc
    cases hp : s.pc id with
    | idle => exact absurd hp hpc
    | _ => rfl
  exact (Served.step (hserves _) hcall hs).transId

theorem transId_of_step {next : State} (hs : Step s event next) :
    next.transId = s.transId ∨ event = .begin ∧ next.transId = s.transId + 1 := by
  cases event with
  | begin =>
      simp only [Step, step, transactionBegin] at hs
      split at hs
      · cases hs
        exact .inr ⟨rfl, rfl⟩
      · cases hs
  | call id call => exact .inl (Served.receive (show receive s id call = some next from hs)).transId
  | _ id => exact .inl (transId_of_serving id (by simp [Event.serves]) hs)

theorem dependency_in_bounds (ec : Slot → Str) (s : State)
    (hr : Reachable (Guarded Fits Step) (· = start ec) s) (fuel : Nat) (event : Event)
    (cell : Tid × Tid) (hcell : cell ∈ s.cells fuel event) : InBounds cell := by
  have hinv : Locks s ∧ s.transId ≤ INODE_NUM := by
    refine hr.invariant (fun s => Locks s ∧ s.transId ≤ INODE_NUM) ?_ ?_
    · rintro s rfl
      exact ⟨Locks.start ec, Nat.zero_le _⟩
    · rintro s event next ⟨hlocks, hle⟩ ⟨hfits, hs⟩
      refine ⟨hlocks.step hs, ?_⟩
      rcases transId_of_step hs with hsame | ⟨hbegin, hnext⟩
      · exact hsame.trans_le hle
      · exact hnext.trans_le (hfits hbegin)
  obtain ⟨hrow, hcolumn⟩ := hinv.1.lt_of_mem_cells hcell
  exact ⟨hrow.trans_le hinv.2, hcolumn.trans_le hinv.2⟩

-- Transaction 1 checks a slot that transaction 0 has read, and waits for it.
theorem dependency_in_bounds_waiting : ∃ s : State, (1, 0) ∈ s.cells 3 (.checkCycle 1) ∧ InBounds (1, 0) := by
  have hrun : (execute (fun s event => if Fits s event then step s event else none) (start fun _ => [])
      [.begin, .begin, .call 0 (.get []), .checkCycle 0, .acquire 0, .record 0, .call 1 (.get [])]).map
        (fun s => s.cells 3 (.checkCycle 1)) = some [(0, 0), (0, 1), (1, 0)] := by
    decide +kernel
  obtain ⟨s, hs, hcells⟩ := Option.map_eq_some_iff.mp hrun
  have hstart : Reachable (Guarded Fits Step) (· = start fun _ => []) (start fun _ => []) := .start rfl
  have hcell : (1, 0) ∈ s.cells 3 (.checkCycle 1) := by simp [hcells]
  exact ⟨s, hcell, dependency_in_bounds _ s (hstart.executed hs) 3 (.checkCycle 1) (1, 0) hcell⟩

-- A number of transactions have been begun and have done nothing.
theorem begun_reachable (ec : Slot → Str) (count : Nat) (hcount : count < 2 ^ 31) :
    ∃ s, Reachable Step (· = start ec) s ∧ s.transId = count ∧ (∀ id, s.pc id = .idle) ∧
      (∀ id < count, s.transactionInfos id = some {}) ∧ s.lcDependency = none := by
  induction count with
  | zero => exact ⟨start ec, .start rfl, rfl, fun _ => rfl, by simp, rfl⟩
  | succ count ih =>
      obtain ⟨s, hr, htid, hidle, hinfos, hfree⟩ := ih (by omega)
      have hs : Step s .begin { s.setInfo s.transId (some {}) with transId := s.transId + 1 } := by
        simp only [Step, step, transactionBegin]
        rw [if_pos (htid ▸ hcount)]
      refine ⟨_, hr.extend hs, by simp [htid], hidle, ?_, hfree⟩
      intro id hid
      by_cases he : id = s.transId
      · subst he
        exact setInfo_infos_self s _ _
      · have hlt : id < count := lt_of_le_of_ne (Nat.lt_succ_iff.mp hid) (htid ▸ he)
        simpa [State.setInfo, he] using hinfos id hlt

-- The first of INODE_NUM + 1 transactions commits.
theorem dependency_out_of_bounds :
    ∃ s, Reachable Step (· = start fun _ => []) s ∧
      (0, INODE_NUM) ∈ s.cells 0 (.commitEnd 0) ∧ ¬ InBounds (0, INODE_NUM) := by
  obtain ⟨s, hr, htid, hidle, hinfos, hfree⟩ :=
    begun_reachable (fun _ => []) (INODE_NUM + 1) (by decide)
  have hinfo : s.transactionInfos 0 = some {} := hinfos 0 (by decide)
  have hcall : Step s (.call 0 .commit) (s.setPc 0 .preparing) := by
    simp [Step, step, receive, hidle, hinfo]
  have hstart : Step (s.setPc 0 .preparing) (.commitStart 0)
      ({ s.setPc 0 .preparing with lcDependency := some 0 }.setPc 0 (.committing [])) := by
    simp [Step, step, commitStart, hinfo, hfree, entries]
  refine ⟨_, (hr.extend hcall).extend hstart, ?_, by simp [InBounds]⟩
  simp only [State.cells, setPc_pc_self, clearAccesses, List.mem_flatMap, List.mem_range]
  exact ⟨INODE_NUM, htid ▸ Nat.lt_succ_self _, by simp⟩

end CseLabs.TwoPhase
