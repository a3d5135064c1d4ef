import CseLabs.TwoPhase.Bounds
import CseLabs.TwoPhase.Refusals

namespace CseLabs.TwoPhase

open Ydb Relation WaitGraph

section Search

variable {dependency : Tid → Tid → Bool} {transId : Tid}

theorem anyM_ends {α : Type*} {f : α → Option Bool} {list : List α} (h : ∀ x ∈ list, ∃ found, f x = some found) :
    ∃ found, list.anyM f = some found := by
  induction list with
  | nil => exact ⟨false, rfl⟩
  | cons first rest ih =>
      obtain ⟨found, hfirst⟩ := h first List.mem_cons_self
      cases found with
      | true => exact ⟨true, by simp [List.anyM, hfirst]⟩
      | false =>
          obtain ⟨found, hrest⟩ := ih fun x hx => h x (List.mem_cons_of_mem first hx)
          exact ⟨found, by simp [List.anyM, hfirst, hrest]⟩

open Classical in
-- Without a cycle the search goes no deeper than there are descendants.
theorem dfs_ends {fuel : Nat} {id1 id2 : Tid} (hacyclic : Acyclic fun x y => dependency x y = true)
    (hfuel : ((Finset.range transId).filter (TransGen (fun x y => dependency x y = true) id1)).card < fuel) :
    ∃ found, dfs dependency transId fuel id1 id2 = some found := by
  induction fuel generalizing id1 with
  | zero => omega
  | succ fuel ih =>
      rw [dfs]
      by_cases heq : id1 = id2
      · exact ⟨true, if_pos heq⟩
      · rw [if_neg heq]
        refine anyM_ends fun i hi => ?_
        by_cases hedge : dependency id1 i = true ∧ i ≠ id1
        · rw [if_pos hedge]
          have hless := hacyclic.card_descendants_lt (Finset.range transId) hedge.1
            (Finset.mem_range.mpr (List.mem_range.mp hi))
          exact ih (by omega)
        · exact ⟨false, if_neg hedge⟩

end Search

section Forest

variable {s next : State} {event : Event}

-- A step adds no edge, or it is a check that found no path back.
theorem edge_of_step (hs : Step s event next) :
    (∀ x y, next.Edge x y → s.Edge x y) ∨
      ∃ id op id2, event = .checkCycle id ∧ s.pc id = .checking op ∧ s.lcDependency = none ∧ id2 < s.transId ∧
        dfs s.dependency s.transId (s.transId + 1) id2 id = some false ∧
        ∀ x y, next.Edge x y → s.Edge x y ∨ x = id ∧ y = id2 := by
  have hclear : ∀ id x y, (s.clearDependency id).Edge x y → s.Edge x y := by
    intro id x y hxy
    simp only [State.Edge, State.clearDependency] at hxy
    split at hxy
    · cases hxy
    · exact hxy
  unfold Step TwoPhase.step at hs
  cases event with
  | begin =>
      obtain rfl := begin_cases hs
      exact .inl fun _ _ hxy => hxy
  | call id call =>
      obtain ⟨-, ⟨-, rfl⟩ | ⟨info, hinfo, ⟨op, rfl, haccess⟩ | ⟨-, rfl⟩ | ⟨-, rfl⟩⟩⟩ := receive_cases hs
      · exact .inl fun _ _ hxy => hxy
      · rcases access_cases hinfo haccess with ⟨-, rfl⟩ | ⟨-, old, -, rfl⟩
        · exact .inl fun _ _ hxy => hxy
        · exact .inl fun _ _ hxy => hxy
      · exact .inl fun _ _ hxy => hxy
      · exact .inl fun _ _ hxy => hxy
  | checkCycle id =>
      obtain ⟨op, cycle, mid, hpc, hfree, hcheck, rfl⟩ := runCheckCycle_cases hs
      rcases checkCycle_cases hcheck with ⟨-, rfl, rfl⟩ | ⟨id2, -, hlt, hdfs, rfl⟩
      · exact .inl fun _ _ hxy => hxy
      · cases cycle with
        | true => exact .inl fun _ _ hxy => hxy
        | false =>
            refine .inr ⟨id, op, id2, rfl, hpc, hfree, hlt, hdfs, fun x y hxy => ?_⟩
            by_cases hx : x = id
            · subst hx
              by_cases hy : y = id2
              · exact .inr ⟨rfl, hy⟩
              · exact .inl (by simpa [State.Edge, hy] using hxy)
            · exact .inl (by simpa [State.Edge, hx] using hxy)
  | acquire id =>
      obtain ⟨op, -, -, rfl⟩ := acquire_cases hs
      exact .inl fun _ _ hxy => hxy
  | record id =>
      obtain ⟨op, info, -, -, rfl⟩ := record_cases hs
      exact .inl fun _ _ hxy => hxy
  | releaseStart id =>
      obtain ⟨call, info, -, -, -, rfl⟩ := releaseStart_cases hs
      exact .inl (hclear id)
  | releaseEntry id =>
      obtain ⟨call, ino, rest, -, rfl⟩ := releaseEntry_cases hs
      exact .inl fun _ _ hxy => hxy
  | releaseEnd id =>
      obtain ⟨call, -, rfl⟩ := releaseEnd_cases hs
      exact .inl fun _ _ hxy => hxy
  | commitStart id =>
      obtain ⟨info, -, -, -, rfl⟩ := commitStart_cases hs
      exact .inl fun _ _ hxy => hxy
  | commitEntry id =>
      obtain ⟨ino, value, rest, -, rfl⟩ := commitEntry_cases hs
      exact .inl fun _ _ hxy => hxy
  | commitEnd id =>
      obtain ⟨-, rfl⟩ := commitEnd_cases hs
      exact .inl (hclear id)

-- dependency as a graph: every transaction has one successor at most, and no path comes back.
structure Forest (s : State) : Prop where
  edges : ∀ x y, s.Edge x y → x ≠ y ∧ y < s.transId
  acyclic : Acyclic s.Edge
  single : ∀ x y z, s.Edge x y → s.Edge x z → y = z

theorem Forest.start (ec : Slot → Str) : Forest (start ec) where
  edges _ _ h := by cases h
  acyclic _ hcycle := by
    obtain ⟨next, hfirst, -⟩ := TransGen.head'_iff.mp hcycle
    cases hfirst
  single _ _ _ h := by cases h

-- A transaction that checks has no edge: those it had came from an earlier wait, and went away
-- with the call of the holder.
theorem Forest.step (h : Forest s) (hlocks : Locks s) (hgenuine : Genuine s) (hs : Step s event next) :
    Forest next := by
  have htid : s.transId ≤ next.transId := by
    rcases transId_of_step hs with hsame | ⟨-, hmore⟩
    · exact hsame.ge
    · exact hmore ▸ Nat.le_succ _
  rcases edge_of_step hs with hsub | ⟨id, op, id2, -, hpc, hfree, hlt, hdfs, hsub⟩
  · exact
      { edges := fun x y hxy => ⟨(h.edges x y (hsub x y hxy)).1, (h.edges x y (hsub x y hxy)).2.trans_le htid⟩
        acyclic := h.acyclic.mono hsub
        single := fun x y z hxy hxz => h.single x y z (hsub x y hxy) (hsub x z hxz) }
  · have hreach := dfs_eq_false h.edges hdfs
    have hne : id ≠ id2 := by
      rintro rfl
      exact hreach .refl
    have hnone : ∀ y, ¬ s.Edge id y := by
      intro y hedge
      obtain ⟨op', hop', -⟩ := hgenuine.waits hlocks hfree hedge
      rw [hpc] at hop'
      cases hop'
    constructor
    · intro x y hxy
      rcases hsub x y hxy with hold | ⟨rfl, rfl⟩
      · exact ⟨(h.edges x y hold).1, (h.edges x y hold).2.trans_le htid⟩
      · exact ⟨hne, hlt.trans_le htid⟩
    · exact (h.acyclic.add hreach).mono hsub
    · intro x y z hxy hxz
      rcases hsub x y hxy with hy | ⟨rfl, rfl⟩
      · rcases hsub x z hxz with hz | ⟨rfl, rfl⟩
        · exact h.single x y z hy hz
        · exact absurd hy (hnone y)
      · rcases hsub x z hxz with hz | ⟨-, rfl⟩
        · exact absurd hz (hnone z)
        · rfl

open Classical in
theorem Forest.dfs_exact (h : Forest s) (id1 id2 : Tid) {fuel : Nat} (hfuel : s.transId < fuel) :
    ∃ found, dfs s.dependency s.transId fuel id1 id2 = some found ∧
      (found = true ↔ ReflTransGen s.Edge id1 id2) := by
  have hcard := Finset.card_filter_le (Finset.range s.transId) (TransGen (fun x y => s.dependency x y = true) id1)
  rw [Finset.card_range] at hcard
  obtain ⟨found, hfound⟩ : ∃ found, dfs s.dependency s.transId fuel id1 id2 = some found :=
    dfs_ends h.acyclic (hcard.trans_lt hfuel)
  refine ⟨found, hfound, ?_⟩
  cases found with
  | true => exact ⟨fun _ => dfs_eq_true hfound, fun _ => rfl⟩
  | false => exact ⟨fun hfalse => absurd hfalse (by simp), fun hpath => absurd hpath (dfs_eq_false h.edges hfound)⟩

end Forest

theorem search_well_defined (ec : Slot → Str) (s : State) (hr : Reachable (Guarded Bounded Step) (· = start ec) s) :
    Acyclic s.Edge ∧ (∀ x y z, s.Edge x y → s.Edge x z → y = z) ∧
      ∀ a b fuel, a < s.transId → b < s.transId → s.transId < fuel →
        ∃ found, dfs s.dependency s.transId fuel a b = some found ∧ (found = true ↔ ReflTransGen s.Edge a b) := by
  have hinv : Books s ∧ Genuine s ∧ Forest s := by
    refine hr.invariant (fun s => Books s ∧ Genuine s ∧ Forest s) ?_ ?_
    · rintro s rfl
      exact ⟨.start ec, .start ec, .start ec⟩
    · rintro s event next ⟨hbooks, hgenuine, hforest⟩ ⟨-, hs⟩
      exact ⟨hbooks.step hs, hgenuine.step hbooks hs, hforest.step hbooks.locks hgenuine hs⟩
  obtain ⟨-, -, hforest⟩ := hinv
  exact ⟨hforest.acyclic, hforest.single, fun a b fuel _ _ hfuel => hforest.dfs_exact a b hfuel⟩

-- Transaction 2 waits for transaction 1, which waits for transaction 0.
theorem search_well_defined_chain : ∃ s : State, s.Edge 2 1 ∧ s.Edge 1 0 ∧ ¬ s.Edge 2 0 ∧
    dfs s.dependency s.transId (s.transId + 1) 2 0 = some true := by
  have hrun : (execute (fun s event => if Bounded s event then step s event else none) (start fun _ => [])
      [.begin, .begin, .begin, .call 0 (.get []), .checkCycle 0, .acquire 0, .record 0,
        .call 1 (.get [1]), .checkCycle 1, .acquire 1, .record 1, .call 1 (.get []), .checkCycle 1,
        .call 2 (.get [1]), .checkCycle 2]).map (fun s => (s.transId, s.dependency 2 1, s.dependency 1 0)) =
      some (3, true, true) := by
    decide +kernel
  obtain ⟨s, hs, hfields⟩ := Option.map_eq_some_iff.mp hrun
  simp only [Prod.mk.injEq] at hfields
  obtain ⟨htid, h21, h10⟩ := hfields
  have hstart : Reachable (Guarded Bounded Step) (· = start fun _ => []) (start fun _ => []) := .start rfl
  obtain ⟨-, hsingle, hsearch⟩ := search_well_defined (fun _ => []) s (hstart.executed hs)
  obtain ⟨found, hfound, hiff⟩ := hsearch 2 0 (s.transId + 1) (by rw [htid]; decide) (by rw [htid]; decide)
    (Nat.lt_succ_self _)
  refine ⟨s, h21, h10, fun h20 => ?_, ?_⟩
  · exact absurd (hsingle 2 1 0 h21 h20) (by decide)
  · rw [hfound, hiff.mpr (.tail (.single h21) h10)]

end CseLabs.TwoPhase
