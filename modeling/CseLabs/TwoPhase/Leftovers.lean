import CseLabs.TwoPhase.Locks

namespace CseLabs.TwoPhase

open Ydb

-- dependency speaks about live transactions only, and the lock DEPENDENCY is kept for
-- the length of a loop.
structure Edges (s : State) : Prop where
  live : ∀ x y, s.dependency x y = true → s.transactionInfos x ≠ none ∧ s.transactionInfos y ≠ none
  cleared : ∀ id call rest, s.pc id = .releasing call rest → ∀ other,
    s.dependency id other = false ∧ s.dependency other id = false
  turn : ∀ id, s.lcDependency = some id → (s.pc id).inLoop = true

variable {s next : State} {id : Tid}

-- A step that adds no edge, ends no transaction and enters no loop of release_locks.
theorem Edges.keep (h : Edges s) (hdep : next.dependency = s.dependency)
    (hlive : ∀ x, s.transactionInfos x ≠ none → next.transactionInfos x ≠ none)
    (hrel : ∀ x call rest, next.pc x = .releasing call rest → ∃ call' rest', s.pc x = .releasing call' rest')
    (hturn : ∀ x, next.lcDependency = some x → (next.pc x).inLoop = true) : Edges next where
  live x y hxy := by
    rw [hdep] at hxy
    exact ⟨hlive x (h.live x y hxy).1, hlive y (h.live x y hxy).2⟩
  cleared x call rest hpc := by
    obtain ⟨call', rest', hold⟩ := hrel x call rest hpc
    rw [hdep]
    exact h.cleared x call' rest' hold
  turn := hturn

theorem Edges.start (ec : Slot → Str) : Edges (start ec) where
  live _ _ h := by cases h
  cleared _ _ _ h := by cases h
  turn _ h := by cases h

-- A transaction outside the loops moves on to another point outside them.
theorem Edges.setPc (h : Edges s) {pc : Pc} (hold : (s.pc id).inLoop = false) (hnew : pc.inLoop = false) :
    Edges (s.setPc id pc) := by
  refine h.keep rfl (fun _ hx => hx) ?_ ?_
  · intro x call rest hpc
    by_cases hx : x = id
    · subst hx
      rw [setPc_pc_self] at hpc
      rw [hpc] at hnew
      cases hnew
    · rw [setPc_pc_of_ne _ _ _ _ hx] at hpc
      exact ⟨call, rest, hpc⟩
  · intro x hx
    have hloop := h.turn x hx
    have hne : x ≠ id := by
      rintro rfl
      rw [hold] at hloop
      cases hloop
    rw [setPc_pc_of_ne _ _ _ _ hne]
    exact hloop

theorem Edges.reply (h : Edges s) (hold : (s.pc id).inLoop = false) (call : Call) (status : Status)
    (value : Str) : Edges (s.reply id call status value) :=
  (h.setPc hold (show Pc.idle.inLoop = false from rfl)).keep rfl (fun _ hx => hx)
    (fun _ call rest hpc => ⟨call, rest, hpc⟩) (h.setPc hold rfl).turn

theorem Edges.setInfo (h : Edges s) (info : Transaction) : Edges (s.setInfo id (some info)) := by
  refine h.keep rfl ?_ (fun _ call rest hpc => ⟨call, rest, hpc⟩) h.turn
  intro x hx
  by_cases he : x = id
  · simp [he]
  · rwa [setInfo_infos_of_ne _ _ _ _ he]

theorem Edges.begin (h : Edges s) (hs : transactionBegin s = some next) : Edges next := by
  obtain rfl := begin_cases hs
  have hnew : Edges (s.setInfo s.transId (some {})) := h.setInfo {}
  exact hnew.keep rfl (fun _ hx => hx) (fun _ call rest hpc => ⟨call, rest, hpc⟩) hnew.turn

theorem Edges.receive (h : Edges s) {call : Call} (hs : receive s id call = some next) : Edges next := by
  obtain ⟨hidle, hcases⟩ := receive_cases hs
  have hloop : (s.pc id).inLoop = false := by rw [hidle]; rfl
  rcases hcases with ⟨-, rfl⟩ | ⟨info, hinfo, ⟨op, rfl, haccess⟩ | ⟨-, rfl⟩ | ⟨-, rfl⟩⟩
  · exact h.reply hloop _ _ _
  · rcases access_cases hinfo haccess with ⟨-, rfl⟩ | ⟨-, old, -, rfl⟩
    · exact h.setPc hloop rfl
    · exact (h.setInfo _).reply hloop _ _ _
  · exact h.setPc hloop rfl
  · exact h.setPc hloop rfl

-- A transaction in lock_handlers is live.
theorem Locks.live_of_handler (h : Locks s) {ino : Slot} (hino : s.lockHandlers ino = some id) :
    s.transactionInfos id ≠ none := by
  intro hnone
  have hmem := ((h id).handled ino).mp hino
  have hidle : s.pc id = .idle := by
    by_contra hp
    exact (h id).busy hp hnone
  simp [hidle, Pc.recorded, locks_of_none s id hnone] at hmem

theorem Edges.runCheckCycle (h : Edges s) (hlocks : Locks s) (hs : runCheckCycle s id = some next) :
    Edges next := by
  obtain ⟨op, cycle, mid, hpc, hfree, hcheck, rfl⟩ := runCheckCycle_cases hs
  have hself : s.transactionInfos id ≠ none := (hlocks id).busy (by simp [hpc])
  have hmid : Edges mid ∧ mid.pc id = .checking op := by
    rcases checkCycle_cases hcheck with ⟨-, -, rfl⟩ | ⟨id2, hhandler, -, -, hmid⟩
    · exact ⟨h, hpc⟩
    · cases cycle with
      | true =>
          rw [if_pos rfl] at hmid
          exact hmid ▸ ⟨h, hpc⟩
      | false =>
          rw [if_neg (by simp)] at hmid
          subst hmid
          refine ⟨⟨?_, ?_, ?_⟩, hpc⟩
          · intro x y hxy
            by_cases hx : x = id
            · subst hx
              by_cases hy : y = id2
              · subst hy
                exact ⟨hself, hlocks.live_of_handler hhandler⟩
              · simp only [Function.update_self, Function.update_of_ne hy] at hxy
                exact h.live _ _ hxy
            · simp only [Function.update_of_ne hx] at hxy
              exact h.live _ _ hxy
          · -- nobody is in a loop while DEPENDENCY is free
            intro x call rest hx
            have hturn := (hlocks x).turn (by rw [show s.pc x = _ from hx]; rfl)
            rw [hfree] at hturn
            cases hturn
          · intro x hx
            exact h.turn x hx
  refine hmid.1.setPc (by rw [hmid.2]; rfl) ?_
  cases cycle <;> rfl

theorem Edges.acquire (h : Edges s) (hs : acquire s id = some next) : Edges next := by
  obtain ⟨op, hpc, -, rfl⟩ := acquire_cases hs
  have hlc : Edges { s with lc := Function.update s.lc op.ino (some id) } :=
    h.keep rfl (fun _ hx => hx) (fun _ call rest hx => ⟨call, rest, hx⟩) h.turn
  exact hlc.setPc (show (s.pc id).inLoop = false by rw [hpc]; rfl) rfl

theorem Edges.record (h : Edges s) (hs : record s id = some next) : Edges next := by
  obtain ⟨op, info, hpc, -, rfl⟩ := record_cases hs
  have hhan : Edges { s with lockHandlers := Function.update s.lockHandlers op.ino (some id) } :=
    h.keep rfl (fun _ hx => hx) (fun _ call rest hx => ⟨call, rest, hx⟩) h.turn
  exact (hhan.setInfo _).reply (show (s.pc id).inLoop = false by rw [hpc]; rfl) _ _ _

-- clearDependency reaches every edge of a transaction, because edges lead to
-- transactions that have begun.
theorem Edges.clearDependency_of_live (h : Edges s) (hlocks : Locks s) (id x y : Tid)
    (hxy : (s.clearDependency id).dependency x y = true) :
    s.dependency x y = true ∧ x ≠ id ∧ y ≠ id := by
  simp only [State.clearDependency] at hxy
  split at hxy
  · cases hxy
  · rename_i hout
    obtain ⟨hx, hy⟩ := h.live x y hxy
    have hxlt := (hlocks x).born hx
    have hylt := (hlocks y).born hy
    refine ⟨hxy, ?_, ?_⟩
    · rintro rfl
      exact hout (.inl ⟨rfl, hylt⟩)
    · rintro rfl
      exact hout (.inr ⟨rfl, hxlt⟩)

-- Somebody in a loop is the one that has DEPENDENCY.
theorem Locks.loop_unique (h : Locks s) {other : Tid} (hid : s.lcDependency = some id)
    (hother : (s.pc other).inLoop = true) : other = id := by
  have hturn := (h other).turn hother
  rw [hid] at hturn
  exact (Option.some.inj hturn).symm

theorem Edges.releaseStart (h : Edges s) (hlocks : Locks s) (hs : releaseStart s id = some next) :
    Edges next := by
  obtain ⟨call, info, hpc, hinfo, hfree, rfl⟩ := releaseStart_cases hs
  have hclear := h.clearDependency_of_live hlocks id
  constructor
  · intro x y hxy
    exact h.live x y (hclear x y hxy).1
  · intro x call' rest hx other
    by_cases he : x = id
    · subst he
      constructor
      · by_contra hne
        exact (hclear _ _ (by simpa using hne)).2.1 rfl
      · by_contra hne
        exact (hclear _ _ (by simpa using hne)).2.2 rfl
    · rw [setPc_pc_of_ne _ _ _ _ he] at hx
      have hturn := (hlocks x).turn (by rw [show s.pc x = _ from hx]; rfl)
      rw [hfree] at hturn
      cases hturn
  · intro x hx
    obtain rfl : id = x := Option.some.inj hx
    rw [setPc_pc_self]
    rfl

theorem Edges.releaseEntry (h : Edges s) (hlocks : Locks s) (hs : releaseEntry s id = some next) :
    Edges next := by
  obtain ⟨call, ino, rest, hpc, rfl⟩ := releaseEntry_cases hs
  refine h.keep rfl (fun _ hx => hx) ?_ ?_
  · intro x call' rest' hx
    by_cases he : x = id
    · exact ⟨call, ino :: rest, he ▸ hpc⟩
    · rw [setPc_pc_of_ne _ _ _ _ he] at hx
      exact ⟨call', rest', hx⟩
  · intro x hx
    obtain rfl : id = x := hlocks.loop_unique hx (by rw [hpc]; rfl)
    rw [setPc_pc_self]
    rfl

theorem Edges.commitStart (h : Edges s) (hs : commitStart s id = some next) : Edges next := by
  obtain ⟨info, hpc, hinfo, -, rfl⟩ := commitStart_cases hs
  refine h.keep rfl (fun _ hx => hx) ?_ ?_
  · intro x call rest hx
    by_cases he : x = id
    · subst he
      rw [setPc_pc_self] at hx
      cases hx
    · rw [setPc_pc_of_ne _ _ _ _ he] at hx
      exact ⟨call, rest, hx⟩
  · intro x hx
    obtain rfl : id = x := Option.some.inj hx
    rw [setPc_pc_self]
    rfl

theorem Edges.commitEntry (h : Edges s) (hlocks : Locks s) (hs : commitEntry s id = some next) :
    Edges next := by
  obtain ⟨ino, value, rest, hpc, rfl⟩ := commitEntry_cases hs
  refine h.keep rfl (fun _ hx => hx) ?_ ?_
  · intro x call rest' hx
    by_cases he : x = id
    · subst he
      rw [setPc_pc_self] at hx
      cases hx
    · rw [setPc_pc_of_ne _ _ _ _ he] at hx
      exact ⟨call, rest', hx⟩
  · intro x hx
    obtain rfl : id = x := hlocks.loop_unique hx (by rw [hpc]; rfl)
    rw [setPc_pc_self]
    rfl

-- The end of a transaction that no edge touches any more.
theorem Edges.finish (h : Edges s) (hlocks : Locks s) (hloop : (s.pc id).inLoop = true)
    (hclear : ∀ x y, next.dependency x y = true → s.dependency x y = true ∧ x ≠ id ∧ y ≠ id)
    (hinfo : ∀ x, x ≠ id → next.transactionInfos x = s.transactionInfos x)
    (hpc : ∀ x, x ≠ id → next.pc x = s.pc x) (hself : next.pc id = .idle)
    (hfree : next.lcDependency = none) : Edges next := by
  have hturn := (hlocks id).turn hloop
  constructor
  · intro x y hxy
    obtain ⟨hold, hx, hy⟩ := hclear x y hxy
    rw [hinfo x hx, hinfo y hy]
    exact h.live x y hold
  · intro x call rest hx
    by_cases he : x = id
    · subst he
      rw [hself] at hx
      cases hx
    · rw [hpc x he] at hx
      exact absurd (hlocks.loop_unique hturn (by rw [hx]; rfl)) he
  · intro x hx
    rw [hfree] at hx
    cases hx

theorem Edges.releaseEnd (h : Edges s) (hlocks : Locks s) (hs : releaseEnd s id = some next) :
    Edges next := by
  obtain ⟨call, hpc, rfl⟩ := releaseEnd_cases hs
  have hcleared := h.cleared id call [] hpc
  refine h.finish hlocks (by rw [hpc]; rfl) ?_ (fun x hx => setInfo_infos_of_ne _ _ _ _ hx)
    (fun x hx => reply_pc_of_ne _ _ _ _ _ _ hx) (reply_pc_self _ _ _ _ _) rfl
  intro x y hxy
  have hold : s.dependency x y = true := hxy
  refine ⟨hold, ?_, ?_⟩
  · rintro rfl
    rw [(hcleared y).1] at hold
    cases hold
  · rintro rfl
    rw [(hcleared x).2] at hold
    cases hold

theorem Edges.commitEnd (h : Edges s) (hlocks : Locks s) (hs : commitEnd s id = some next) :
    Edges next := by
  obtain ⟨hpc, rfl⟩ := commitEnd_cases hs
  exact h.finish hlocks (by rw [hpc]; rfl) (h.clearDependency_of_live hlocks id)
    (fun x hx => setInfo_infos_of_ne _ _ _ _ hx) (fun x hx => reply_pc_of_ne _ _ _ _ _ _ hx)
    (reply_pc_self _ _ _ _ _) rfl

theorem Edges.step (h : Edges s) (hlocks : Locks s) {event : Event} (hs : Step s event next) :
    Edges next := by
  unfold Step TwoPhase.step at hs
  cases event with
  | begin => exact h.begin hs
  | call id call => exact h.receive hs
  | checkCycle id => exact h.runCheckCycle hlocks hs
  | acquire id => exact h.acquire hs
  | record id => exact h.record hs
  | releaseStart id => exact h.releaseStart hlocks hs
  | releaseEntry id => exact h.releaseEntry hlocks hs
  | releaseEnd id => exact h.releaseEnd hlocks hs
  | commitStart id => exact h.commitStart hs
  | commitEntry id => exact h.commitEntry hlocks hs
  | commitEnd id => exact h.commitEnd hlocks hs

-- The books of a server.
structure Books (s : State) : Prop where
  locks : Locks s
  edges : Edges s

theorem Books.start (ec : Slot → Str) : Books (start ec) := ⟨.start ec, .start ec⟩

theorem Books.step (h : Books s) {event : Event} (hs : Step s event next) : Books next :=
  ⟨h.locks.step hs, h.edges.step h.locks hs⟩

theorem reachable_books {ec : Slot → Str} (hr : Reachable Step (· = TwoPhase.start ec) s) : Books s := by
  refine hr.invariant Books ?_ ?_
  · rintro start rfl
    exact .start ec
  · rintro before event next h hs
    exact h.step hs

-- Nothing outlives the transactions.
structure Bare (s : State) : Prop where
  idle : ∀ id, s.pc id = .idle
  lockHandlers : ∀ ino, s.lockHandlers ino = none
  lc : ∀ ino, s.lc ino = none
  dependency : ∀ x y, s.dependency x y = false
  free : s.lcDependency = none

theorem Books.bare (h : Books s) (hnone : ∀ id, s.transactionInfos id = none) : Bare s := by
  have hidle : ∀ id, s.pc id = .idle := by
    intro id
    by_contra hp
    exact (h.locks id).busy hp (hnone id)
  refine ⟨hidle, ?_, ?_, ?_, ?_⟩
  · intro ino
    by_contra hh
    obtain ⟨id, hid⟩ := Option.ne_none_iff_exists'.mp hh
    exact h.locks.live_of_handler hid (hnone id)
  · intro ino
    by_contra hh
    obtain ⟨id, hid⟩ := Option.ne_none_iff_exists'.mp hh
    have hmem := ((h.locks id).held ino).mp hid
    simp [hidle id, Pc.owned, Pc.recorded, locks_of_none s id (hnone id)] at hmem
  · intro x y
    by_contra hxy
    exact (h.edges.live x y (by simpa using hxy)).1 (hnone x)
  · by_contra hh
    obtain ⟨id, hid⟩ := Option.ne_none_iff_exists'.mp hh
    have hloop := h.edges.turn id hid
    rw [hidle id] at hloop
    cases hloop

end CseLabs.TwoPhase
