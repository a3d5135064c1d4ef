import CseLabs.Ydb

namespace CseLabs.Ydb

open Serial

-- Putting entries into the store one after another.
def writeBack (entries : List (Slot × Str)) (ec : Slot → Str) : Slot → Str :=
  entries.foldl (fun ec entry => Function.update ec entry.1 entry.2) ec

section Entries

variable {log : Slot → Option Str} {ino : Slot} {value : Str}

@[simp] theorem mem_entries : (ino, value) ∈ entries log ↔ log ino = some value := by
  simp [entries]

theorem entries_map_fst (log : Slot → Option Str) :
    (entries log).map Prod.fst = (List.finRange HASHSIZE).filter fun ino => (log ino).isSome := by
  unfold entries
  induction List.finRange HASHSIZE with
  | nil => rfl
  | cons first rest ih =>
      cases hlog : log first <;> simp [hlog, ih]

theorem entries_nodup (log : Slot → Option Str) : ((entries log).map Prod.fst).Nodup := by
  rw [entries_map_fst]
  exact (List.nodup_finRange _).filter _

theorem writeBack_of_not_mem {rest : List (Slot × Str)} (ec : Slot → Str)
    (h : ino ∉ rest.map Prod.fst) : writeBack rest ec ino = ec ino := by
  induction rest generalizing ec with
  | nil => rfl
  | cons entry rest ih =>
      simp only [List.map_cons, List.mem_cons, not_or] at h
      have hrest := ih (Function.update ec entry.1 entry.2) h.2
      rw [Function.update_of_ne h.1] at hrest
      exact hrest

theorem writeBack_of_mem {rest : List (Slot × Str)} (ec : Slot → Str)
    (hnodup : (rest.map Prod.fst).Nodup) (h : (ino, value) ∈ rest) : writeBack rest ec ino = value := by
  induction rest generalizing ec with
  | nil => cases h
  | cons entry rest ih =>
      simp only [List.map_cons, List.nodup_cons] at hnodup
      rcases List.mem_cons.mp h with rfl | hmem
      · have hrest := writeBack_of_not_mem (Function.update ec ino value) hnodup.1
        rw [Function.update_self] at hrest
        exact hrest
      · exact ih _ hnodup.2 hmem

-- The whole loop of a commit.
theorem writeBack_entries (log : Slot → Option Str) (ec : Slot → Str) :
    writeBack (entries log) ec = overlay log ec := by
  funext ino
  cases hlog : log ino with
  | none =>
      have hnot : ino ∉ (entries log).map Prod.fst := by
        rw [entries_map_fst]
        simp [hlog]
      rw [writeBack_of_not_mem ec hnot]
      simp [overlay, hlog]
  | some value =>
      rw [writeBack_of_mem ec (entries_nodup log) (mem_entries.mpr hlog)]
      simp [overlay, hlog]

end Entries

-- An answer that is no successful get, set, del or commit does not count.
theorem access_other {reply : Reply} (deleted : Str) (h : reply.status = .OK → reply.call = .abort) :
    reply.access deleted = none := by
  unfold Reply.access
  split
  · rename_i hok
    rw [h hok]
  · rfl

theorem accesses_other {reply : Reply} (deleted : Str) (replies : List Reply)
    (h : reply.status = .OK → reply.call = .abort) :
    accesses deleted (replies ++ [reply]) = accesses deleted replies := by
  funext id
  simp [accesses_append, access_other deleted h]

-- The answers given so far are those of a serial run from `init` to `store` of the
-- transactions that have committed, with the one whose commit is under way as the
-- last.
structure History (init : Slot → Str) (deleted : Str) (transId : Tid) (live : Tid → Prop)
    (replies : List Reply) (committing : List Tid) (store : Slot → Str) : Prop where
  serial : SerialRun init ((commits replies ++ committing).map (accesses deleted replies)) store
  finished : ∀ id ∈ commits replies, ¬ live id ∧ id < transId
  fresh : ∀ id, transId ≤ id → accesses deleted replies id = []

namespace History

variable {init store : Slot → Str} {deleted : Str} {transId id : Tid} {live live' : Tid → Prop}
  {replies : List Reply} {committing : List Tid}

theorem start (init : Slot → Str) (deleted : Str) (live : Tid → Prop) :
    History init deleted 0 live [] [] init :=
  ⟨rfl, by simp [commits], by simp [accesses]⟩

-- A transaction is begun or is over.
theorem setLive (h : History init deleted transId live replies committing store) {transId' : Tid}
    (htid : transId ≤ transId') (hlive : ∀ id, id < transId → live' id → live id) :
    History init deleted transId' live' replies committing store := by
  refine ⟨h.serial, ?_, fun id hle => h.fresh id (htid.trans hle)⟩
  intro id hm
  obtain ⟨hnot, hlt⟩ := h.finished id hm
  exact ⟨fun hl => hnot (hlive id hlt hl), hlt.trans_le htid⟩

-- A successful get, set or del of a transaction that has not committed.
theorem access (h : History init deleted transId live replies committing store) {reply : Reply}
    {access : Access Slot Str} (hlive : live reply.id) (hborn : reply.id < transId)
    (hnot : reply.id ∉ committing) (haccess : reply.access deleted = some access) :
    History init deleted transId live (replies ++ [reply]) committing store := by
  have hcommit : ¬ (reply.call = .commit ∧ reply.status = .OK) := by
    rintro ⟨hcall, hok⟩
    simp [Reply.access, hcall] at haccess
  have hcommits : commits (replies ++ [reply]) = commits replies := by
    rw [commits_append, if_neg hcommit, List.append_nil]
  have hother : ∀ other, other ≠ reply.id →
      accesses deleted (replies ++ [reply]) other = accesses deleted replies other := by
    intro other he
    rw [accesses_append, if_neg (Ne.symm he), List.append_nil]
  refine ⟨?_, ?_, ?_⟩
  · rw [hcommits]
    have hmap : (commits replies ++ committing).map (accesses deleted (replies ++ [reply])) =
        (commits replies ++ committing).map (accesses deleted replies) := by
      refine List.map_congr_left fun other hm => hother other ?_
      rintro rfl
      rcases List.mem_append.mp hm with hm | hm
      · exact (h.finished _ hm).1 hlive
      · exact hnot hm
    rw [hmap]
    exact h.serial
  · rw [hcommits]
    exact h.finished
  · intro other hle
    rw [hother other (hborn.trans_le hle).ne']
    exact h.fresh other hle

theorem other (h : History init deleted transId live replies committing store) {reply : Reply}
    (hstatus : reply.status = .OK → reply.call = .abort) :
    History init deleted transId live (replies ++ [reply]) committing store := by
  have hcommit : ¬ (reply.call = .commit ∧ reply.status = .OK) := by
    rintro ⟨hcall, hok⟩
    rw [hstatus hok] at hcall
    cases hcall
  have hcommits : commits (replies ++ [reply]) = commits replies := by
    rw [commits_append, if_neg hcommit, List.append_nil]
  have hacc := accesses_other deleted replies hstatus
  refine ⟨?_, ?_, ?_⟩
  · rw [hcommits, hacc]
    exact h.serial
  · rw [hcommits]
    exact h.finished
  · rw [hacc]
    exact h.fresh

-- The point at which a transaction takes effect.
theorem commitPoint (h : History init deleted transId live replies [] store)
    (hfaithful : Faithful store (accesses deleted replies id)) :
    History init deleted transId live replies [id] (replay store (accesses deleted replies id)) := by
  refine ⟨?_, h.finished, h.fresh⟩
  have hserial := h.serial
  rw [List.append_nil] at hserial
  rw [List.map_append]
  exact serialRun_snoc init _ _ hserial hfaithful

theorem commitEnd (h : History init deleted transId live replies [id] store) (value : Str)
    (hborn : id < transId) (hlive : ∀ other, live' other → live other ∧ other ≠ id) :
    History init deleted transId live' (replies ++ [⟨id, .commit, .OK, value⟩]) [] store := by
  have hcommits : commits (replies ++ [⟨id, .commit, .OK, value⟩]) = commits replies ++ [id] := by
    simp [commits_append]
  have hacc : accesses deleted (replies ++ [⟨id, .commit, .OK, value⟩]) = accesses deleted replies := by
    funext other
    simp [accesses_append, Reply.access]
  refine ⟨?_, ?_, ?_⟩
  · rw [hcommits, hacc, List.append_nil]
    exact h.serial
  · intro other hm
    rw [hcommits] at hm
    rcases List.mem_append.mp hm with hm | hm
    · obtain ⟨hnot, hlt⟩ := h.finished other hm
      exact ⟨fun hl => hnot (hlive other hl).1, hlt⟩
    · obtain rfl := List.mem_singleton.mp hm
      exact ⟨fun hl => (hlive other hl).2 rfl, hborn⟩
  · rw [hacc]
    exact h.fresh

end History

end CseLabs.Ydb
