import CseLabs.Rpc
import Mathlib.Data.List.TakeWhile
import Mathlib.Tactic

namespace CseLabs.Rpc

section Lists

variable {α : Type*} {later : α → Prop} [DecidablePred later]

@[simp] theorem mem_insertBefore {x y : α} {list : List α} :
    y ∈ insertBefore later x list ↔ y = x ∨ y ∈ list := by
  induction list with
  | nil => simp [insertBefore]
  | cons head rest ih =>
      by_cases h : later head
      · simp [insertBefore, h]
      · simp only [insertBefore, h, if_false, List.mem_cons, ih]
        tauto

-- Both loops keep a list that is ordered by some number ordered.
theorem pairwise_insertBefore (rank : α → Nat) {list : List α} (h : list.Pairwise (rank · ≤ rank ·)) (x : α) :
    (insertBefore (rank x < rank ·) x list).Pairwise (rank · ≤ rank ·) := by
  induction list with
  | nil => simp [insertBefore]
  | cons head rest ih =>
      obtain ⟨hhead, hrest⟩ := List.pairwise_cons.mp h
      by_cases hlater : rank x < rank head
      · simp only [insertBefore, hlater, if_true]
        refine List.pairwise_cons.mpr ⟨fun other hmem => ?_, h⟩
        rcases List.mem_cons.mp hmem with rfl | hmem
        · exact hlater.le
        · exact hlater.le.trans (hhead other hmem)
      · simp only [insertBefore, hlater, if_false]
        refine List.pairwise_cons.mpr ⟨fun other hmem => ?_, ih hrest⟩
        rcases mem_insertBefore.mp hmem with rfl | hmem
        · exact Nat.le_of_not_lt hlater
        · exact hhead other hmem

theorem compress_suffix (seen rest : List Nat) : compress seen rest <:+ seen ++ rest := by
  induction rest generalizing seen with
  | nil => simp [compress]
  | cons x rest ih =>
      refine (ih _).trans ?_
      rw [List.append_assoc, List.singleton_append]
      obtain ⟨dropped, hdropped⟩ := List.dropWhile_suffix (l := seen) fun front => (front + 1) % 2 ^ 32 = x
      refine ⟨dropped, ?_⟩
      rw [← List.append_assoc, hdropped]

theorem mem_compress {seen rest : List Nat} {x : Nat} (h : x ∈ compress seen rest) :
    x ∈ seen ∨ x ∈ rest :=
  List.mem_append.mp ((compress_suffix seen rest).subset h)

theorem mem_updateXidRep {window : List Nat} {xid x : Nat} (h : x ∈ updateXidRep window xid) :
    x = xid ∨ x ∈ window := by
  cases window with
  | nil => exact .inr h
  | cons front rest =>
      by_cases hle : xid ≤ front
      · simp only [updateXidRep, hle, if_true] at h
        exact .inr h
      · have hmem : x ∈ insertBefore (xid < ·) xid (front :: rest) := by
          simp only [updateXidRep, hle, if_false] at h
          split at h
          · cases h
          · next first rest hinsert =>
              rw [hinsert]
              simpa using mem_compress h
        exact mem_insertBefore.mp hmem

end Lists

section ReplyWindow

-- A request whose xid is covered is never taken for a new one.
def Covered (window : List ReplyT) (xid : Nat) : Prop :=
  (∃ reply ∈ window, reply.xid = xid) ∨ ∃ front, window.head? = some front ∧ xid < front.xid

-- The window after a new request.
def enroll (window : List ReplyT) (xid xidRep : Nat) : List ReplyT :=
  (insertBefore (xid < ·.xid) { xid := xid } window).dropWhile (·.xid < xidRep)

theorem checkduplicate_cases (window : List ReplyT) (xid xidRep : Nat) :
    (∃ reply ∈ window, reply.xid = xid ∧ ∃ buf, reply.buf = some buf ∧
      checkduplicateAndUpdate window xid xidRep = (.DONE buf, window)) ∨
    checkduplicateAndUpdate window xid xidRep = (.INPROGRESS, window) ∨
    checkduplicateAndUpdate window xid xidRep = (.FORGOTTEN, window) ∨
    ¬ Covered window xid ∧
      checkduplicateAndUpdate window xid xidRep = (.NEW, enroll window xid xidRep) := by
  unfold checkduplicateAndUpdate
  split
  · next found buf hfind =>
      refine .inl ⟨_, List.mem_of_find?_eq_some hfind, ?_, buf, rfl, rfl⟩
      simpa using List.find?_some hfind
  · exact .inr (.inl rfl)
  · next hfind =>
      split
      · exact .inr (.inr (.inl rfl))
      · next hfront =>
          refine .inr (.inr (.inr ⟨?_, rfl⟩))
          rintro (⟨reply, hmem, hxid⟩ | ⟨front, hhead, hlt⟩)
          · exact absurd hxid (by simpa using List.find?_eq_none.mp hfind reply hmem)
          · simp [hhead, hlt] at hfront

theorem new_iff (window : List ReplyT) (xid xidRep : Nat) :
    (checkduplicateAndUpdate window xid xidRep).1 = .NEW ↔ ¬ Covered window xid := by
  unfold checkduplicateAndUpdate Covered
  have hfound : ∀ reply, window.find? (·.xid = xid) = some reply → ∃ reply ∈ window, reply.xid = xid :=
    fun reply hfind => ⟨reply, List.mem_of_find?_eq_some hfind, by simpa using List.find?_some hfind⟩
  split
  · next hfind => simp [hfound _ hfind]
  · next hfind => simp [hfound _ hfind]
  · next hfind =>
      have hout : ¬ ∃ reply ∈ window, reply.xid = xid := by simpa using hfind
      cases hhead : window.head? with
      | none => simp [hout]
      | some front => by_cases hlt : xid < front.xid <;> simp [hout, hlt]

instance (window : List ReplyT) (xid : Nat) : Decidable (Covered window xid) :=
  inferInstanceAs (Decidable ((∃ reply ∈ window, reply.xid = xid) ∨ ∃ front ∈ window.head?, xid < front.xid))

theorem covered_insert {window : List ReplyT} {xid y : Nat} (hnew : ¬ Covered window xid)
    (h : Covered window y) :
    Covered (insertBefore (xid < ·.xid) { xid := xid } window) y := by
  rcases h with ⟨reply, hmem, hxid⟩ | ⟨front, hhead, hlt⟩
  · exact .inl ⟨reply, by simp [hmem], hxid⟩
  · -- the front is not after the new entry, so it stays the front
    have hle : ¬ xid < front.xid := fun hlater => hnew (.inr ⟨front, hhead, hlater⟩)
    obtain ⟨rest, rfl⟩ := List.head?_eq_some_iff.mp hhead
    exact .inr ⟨front, by simp [insertBefore, hle], hlt⟩

-- Whatever the trimming removes is below the new front.
theorem covered_trim {window : List ReplyT} {xidRep y : Nat}
    (hkeep : ∃ reply ∈ window, xidRep ≤ reply.xid) (h : Covered window y) :
    Covered (window.dropWhile (·.xid < xidRep)) y := by
  induction window with
  | nil => simp at hkeep
  | cons reply rest ih =>
      by_cases hlt : reply.xid < xidRep
      · have hrest : ∃ reply ∈ rest, xidRep ≤ reply.xid := by
          obtain ⟨kept, hmem, hle⟩ := hkeep
          rcases List.mem_cons.mp hmem with rfl | hmem
          · omega
          · exact ⟨kept, hmem, hle⟩
        rw [List.dropWhile_cons_of_pos (by simpa using hlt)]
        by_cases hy : y ≤ reply.xid
        · obtain ⟨front, hhead, hfront⟩ : ∃ front,
              (rest.dropWhile (·.xid < xidRep)).head? = some front ∧ xidRep ≤ front.xid := by
            obtain ⟨kept, hmem, hle⟩ := hrest
            have hne : rest.dropWhile (·.xid < xidRep) ≠ [] := by
              intro hnil
              rw [List.dropWhile_eq_nil_iff] at hnil
              have hlt := of_decide_eq_true (hnil kept hmem)
              omega
            refine ⟨_, List.head?_eq_some_head hne, ?_⟩
            simpa using List.head_dropWhile_not (fun reply : ReplyT => decide (reply.xid < xidRep)) hne
          exact .inr ⟨front, hhead, by omega⟩
        · refine ih hrest ?_
          rcases h with ⟨old, hmem, rfl⟩ | ⟨front, hhead, hfront⟩
          · rcases List.mem_cons.mp hmem with rfl | hmem
            · omega
            · exact .inl ⟨old, hmem, rfl⟩
          · simp at hhead
            subst hhead
            omega
      · rwa [List.dropWhile_cons_of_neg (by simpa using hlt)]

theorem covered_enroll {window : List ReplyT} {xid xidRep y : Nat} (hnew : ¬ Covered window xid)
    (hrep : xidRep ≤ xid) (h : y = xid ∨ Covered window y) :
    Covered (enroll window xid xidRep) y := by
  refine covered_trim ⟨{ xid := xid }, by simp, hrep⟩ ?_
  rcases h with rfl | h
  · exact .inl ⟨{ xid := y }, by simp, rfl⟩
  · exact covered_insert hnew h

theorem mem_enroll {window : List ReplyT} {xid xidRep : Nat} {reply : ReplyT}
    (h : reply ∈ enroll window xid xidRep) : reply = { xid := xid } ∨ reply ∈ window :=
  mem_insertBefore.mp ((List.dropWhile_suffix _).subset h)

theorem addReply_map_xid (window : List ReplyT) (xid : Nat) (buf : Result) :
    (addReply window xid buf).map (·.xid) = window.map (·.xid) := by
  induction window with
  | nil => rfl
  | cons reply rest ih =>
      by_cases h : reply.xid = xid <;> simp [addReply, h, ih]

theorem covered_iff_map (window : List ReplyT) (y : Nat) :
    Covered window y ↔
      y ∈ window.map (·.xid) ∨ ∃ front, (window.map (·.xid)).head? = some front ∧ y < front := by
  simp [Covered]

theorem covered_addReply {window : List ReplyT} {xid y : Nat} {buf : Result}
    (h : Covered window y) : Covered (addReply window xid buf) y := by
  rw [covered_iff_map] at h ⊢
  rwa [addReply_map_xid]

theorem mem_addReply {window : List ReplyT} {xid : Nat} {buf : Result} {reply : ReplyT}
    (h : reply ∈ addReply window xid buf) : reply = { xid := xid, buf := some buf } ∨ reply ∈ window := by
  induction window with
  | nil => cases h
  | cons head rest ih =>
      by_cases hxid : head.xid = xid
      · simp only [addReply, hxid, if_true, List.mem_cons] at h
        rcases h with rfl | h
        · exact .inl rfl
        · exact .inr (List.mem_cons_of_mem _ h)
      · simp only [addReply, hxid, if_false, List.mem_cons] at h
        rcases h with rfl | h
        · exact .inr (List.mem_cons_self ..)
        · exact (ih h).imp_right (List.mem_cons_of_mem _)

end ReplyWindow

end CseLabs.Rpc
