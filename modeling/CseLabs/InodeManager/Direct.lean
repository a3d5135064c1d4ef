import CseLabs.InodeManager.Failing
import CseLabs.InodeManager.Leaks
import Mathlib.Algebra.BigOperators.Group.Finset.Sigma

namespace CseLabs.InodeManager

section Supply

variable {s : Fs} {ino : Inode} {n : Nat} {junk : Stack}

-- As long as there is a free block, alloc_block does not return 0.
theorem allocBlock_left (h : 0 < s.freeBlocks.length) :
    ∃ id s', allocBlock s = .ok id s' ∧ s'.exhausted = s.exhausted ∧ s'.freeBlocks = s.freeBlocks.tail := by
  have hfirst : firstFree s.usingBlocks = s.freeBlocks.head? := List.head?_filter.symm
  rw [allocBlock_eq, hfirst]
  cases hfree : s.freeBlocks with
  | nil =>
      rw [hfree] at h
      exact absurd h (lt_irrefl 0)
  | cons id rest => exact ⟨id, s.mark id true, rfl, rfl, freeBlocks_mark hfree⟩

theorem allocNthBlock_direct (junk : Stack) (ino : Inode) {id : Nat} {s₁ : Fs} (hlt : n < NDIRECT)
    (halloc : allocBlock s = .ok id s₁) :
    allocNthBlock junk ino n s = .ok (ino.setBlock ⟨n, Nat.lt_succ_of_lt hlt⟩ id) s₁ := by
  simp only [allocNthBlock, hlt, dif_pos]
  rw [bind_ok halloc]
  rfl

theorem allocFrom_left (junk : Stack) (ino : Inode) {count : Nat} (hmax : n + count ≤ NDIRECT)
    (hfree : count ≤ s.freeBlocks.length) :
    ∃ ino' s', allocFrom junk ino n count s = .ok ino' s' ∧ s'.exhausted = s.exhausted := by
  induction count generalizing ino n s with
  | zero => exact ⟨ino, s, rfl, rfl⟩
  | succ count ih =>
      have hlt : n < NDIRECT := by omega
      obtain ⟨id, s₁, halloc, hexhausted, hrest⟩ := allocBlock_left (s := s) (by omega)
      have hnth := allocNthBlock_direct junk ino hlt halloc
      have hleft : count ≤ s₁.freeBlocks.length := by
        rw [hrest, List.length_tail]
        omega
      obtain ⟨ino', s', hrun, hkept⟩ := ih (n := n + 1) (ino.setBlock ⟨n, Nat.lt_succ_of_lt hlt⟩ id) (by omega) hleft
      exact ⟨ino', s', by rw [allocFrom, bind_ok hnth, hrun], hkept.trans hexhausted⟩

-- Without enough of them it does.
theorem allocFrom_lost (junk : Stack) {count : Nat} (hmax : n + count ≤ NDIRECT) (hfree : s.freeBlocks.length < count) :
    Lost (allocFrom junk ino n count s) := by
  induction count generalizing ino n s with
  | zero => exact absurd hfree (Nat.not_lt_zero _)
  | succ count ih =>
      have hlt : n < NDIRECT := by omega
      by_cases hleft : 0 < s.freeBlocks.length
      · obtain ⟨id, s₁, halloc, -, hrest⟩ := allocBlock_left hleft
        have hnth := allocNthBlock_direct junk ino hlt halloc
        rw [allocFrom, bind_ok hnth]
        refine ih (by omega) ?_
        rw [hrest, List.length_tail]
        omega
      · have hfirst : firstFree s.usingBlocks = s.freeBlocks.head? := List.head?_filter.symm
        have hempty : s.freeBlocks = [] := List.eq_nil_of_length_eq_zero (by omega)
        have halloc : allocBlock s = .ok 0 { s with exhausted := true } := by
          rw [allocBlock_eq, hfirst, hempty]
          rfl
        rw [allocFrom, bind_ok (allocNthBlock_direct junk ino hlt halloc)]
        exact allocFrom_sticky junk _ (n + 1) count _ rfl

-- A file that stays within its direct blocks finds the blocks it needs.
theorem not_lost_resize (junk : Stack) {n' : Nat} (hmax : n' ≤ NDIRECT) (hn : n ≤ NDIRECT)
    (hfree : n' ≤ s.freeBlocks.length + n) (hexhausted : s.exhausted = false) : ¬ Lost (resize junk ino n n' s) := by
  by_cases hlt : n < n'
  · obtain ⟨ino', s', hrun, hkept⟩ := allocFrom_left (s := s) (n := n) junk ino
      (show n + (n' - n) ≤ NDIRECT by omega) (by omega)
    simp only [resize, hlt, if_true]
    rw [Lost, hrun]
    exact ne_true_of_eq_false (hkept.trans hexhausted)
  · have hdirect : NDIRECT ≤ MAXFILE := by decide
    obtain ⟨s₁, hrun, hfreed⟩ := freeFrom_run (s := s) junk ino (show n' + (n - n') ≤ MAXFILE by omega)
      fun hind => by omega
    simp only [resize, hlt, if_false]
    rw [Lost, bind_ok hrun]
    exact ne_true_of_eq_false (hfreed.exhausted.trans hexhausted)

end Supply

section Kept

def Inode.times (ino : Inode) : Times := ⟨ino.atime, ino.mtime, ino.ctime⟩

-- The blocks that are marked are those of the files, and no file is past its direct blocks.
structure Kept (s : Fs) : Prop where
  sound : Sound s
  balanced : (Ledger.mk s fun _ => none).Balanced
  direct : ∀ inum < INODE_NUM, s.nblocks inum ≤ NDIRECT

variable {s s' : Fs} {inum : Nat} {junk : Stack} {now : Times} {buf : Bytes}

theorem Kept.separated (h : Kept s) : Separated False s := h.balanced.separated

theorem Ledger.Balanced.forget {l : Ledger} (h : l.Balanced) : (Ledger.mk l.fs fun _ => none).Balanced where
  separated := h.separated
  referred := h.referred
  owned _ _ hb := by cases hb

-- A step of the store is one of the ledger.
theorem Kept.step {event : Event} (h : Kept s) (hstep : Step s event s') (hlegal : Legal s event)
    (hsteady : SteadyIndirect s event) (hdirect : ∀ inum < INODE_NUM, s'.nblocks inum ≤ NDIRECT) : Kept s' where
  sound := h.sound.step h.separated hlegal hsteady.fresh hstep
  balanced := by
    have hledger : Ledger.Step ⟨s, fun _ => none⟩ event
        ⟨s', fun b => Ledger.ownerAfter ⟨s, fun _ => none⟩ s' b event⟩ :=
      Ledger.step_iff.mpr ⟨hstep, rfl⟩
    exact (h.balanced.step hlegal hsteady hledger).forget
  direct := hdirect

-- What the other files keep.
def Same (s s' : Fs) (j : Nat) : Prop := s'.inode j = s.inode j ∧ s'.content (s'.inode j) = s.content (s.inode j)

theorem content_of_empty (hsize : (s.inode inum).size = 0) : s.content (s.inode inum) = [] := by
  rw [Fs.content, hsize]
  rfl

theorem Kept.same {j : Nat} (h : Kept s) (hj : j < INODE_NUM) (huntouched : Untouched s s' False j) : Same s s' j := by
  refine ⟨huntouched.inode, ?_⟩
  by_cases htype : (s.inode j).type = 0
  · have hsize := h.sound.unused j hj htype
    rw [content_of_empty hsize, content_of_empty (by rw [huntouched.inode, hsize])]
  · exact huntouched.content ⟨hj, .inr htype⟩

theorem Same.nblocks {j : Nat} (h : Same s s' j) : s'.nblocks j = s.nblocks j := by
  rw [Fs.nblocks, h.1, Fs.nblocks]

theorem blocksNum_mono {size more : Nat} (h : size ≤ more) : blocksNum size ≤ blocksNum more := by
  rw [blocksNum, blocksNum]
  split
  · exact Nat.zero_le _
  · rw [if_neg (by omega)]
    exact Nat.succ_le_succ (Nat.div_le_div_right (Nat.sub_le_sub_right h 1))

theorem blocksNum_le_direct {size : Nat} (h : size ≤ NDIRECT * BLOCK_SIZE) : blocksNum size ≤ NDIRECT :=
  (blocksNum_mono h).trans (by decide)

-- write_file returns, and alloc_block has not returned 0.
theorem Kept.exists_written (h : Kept s) (junk : Stack) (now : Times) (hlive : s.Live inum)
    (hbuf : buf.length ≤ NDIRECT * BLOCK_SIZE) (hfree : blocksNum buf.length ≤ s.freeBlocks.length + s.nblocks inum) :
    ∃ s', InodeManager.writeFile junk now inum buf s = .ok () s' ∧
      Written s s' inum buf False (s.others False inum) ∧ (s'.inode inum).times = now := by
  have hseparated := h.separated
  have hn := h.direct inum hlive.1
  have hn' := blocksNum_le_direct hbuf
  have hmax : NDIRECT ≤ MAXFILE := by decide
  have hlt : buf.length < MAXFILE * BLOCK_SIZE := hbuf.trans_lt (by decide)
  rcases (hseparated.owns inum ⟨hlive.1, .inr hlive.2⟩).resize junk (hn.trans hmax) (hn'.trans hmax)
    (fun hgrow => by omega) (hseparated.others_marked inum) hseparated.exhausted with
    ⟨ino₁, s₁, hresize, hresized⟩ | hlost
  · obtain ⟨s₂, hdata, hpatch⟩ := hresized.owns.writeData junk buf hlt.le
    rw [writeFile_resize hlive.1 hlt hresize, bind_ok hdata, putInode_run hlive.1]
    refine ⟨_, rfl, hresized.written hlive.1 hpatch rfl rfl (toNat_ofNat_size hlt.le), ?_⟩
    rw [inode_setInode_self]
    rfl
  · exact absurd hlost (not_lost_resize junk hn' hn hfree hseparated.exhausted)

theorem Kept.writeFile (h : Kept s) (junk : Stack) (now : Times) (hlive : s.Live inum)
    (hbuf : buf.length ≤ NDIRECT * BLOCK_SIZE) (hfree : blocksNum buf.length ≤ s.freeBlocks.length + s.nblocks inum) :
    ∃ s', InodeManager.writeFile junk now inum buf s = .ok () s' ∧ Kept s' ∧
      (s'.inode inum).type = (s.inode inum).type ∧ s'.content (s'.inode inum) = buf ∧
        (s'.inode inum).times = now ∧ ∀ j < INODE_NUM, j ≠ inum → Same s s' j := by
  have hn := h.direct inum hlive.1
  have hn' := blocksNum_le_direct hbuf
  obtain ⟨s', hrun, hwritten, htimes⟩ := h.exists_written junk now hlive hbuf hfree
  have hsame : ∀ j < INODE_NUM, j ≠ inum → Same s s' j :=
    fun j hj hne => h.same hj (hwritten.untouched h.separated hlive.1 hne hj)
  have hstep : Step s (.writeFile junk now inum buf) s' := step_iff.mpr ⟨hrun, hwritten.exhausted⟩
  have hsteady : SteadyIndirect s (.writeFile junk now inum buf) := ⟨fun hgrow => by omega, fun _ hgrow => by omega⟩
  have hlegal : Legal s (.writeFile junk now inum buf) := ⟨hlive, hbuf.trans_lt (by decide)⟩
  refine ⟨s', hrun, h.step hstep hlegal hsteady fun j hj => ?_, hwritten.type, hwritten.content, htimes, hsame⟩
  by_cases hne : j = inum
  · rw [hne, Fs.nblocks, hwritten.size]
    exact hn'
  · rw [(hsame j hj hne).nblocks]
    exact h.direct j hj

-- With too few free blocks the call ends with a block that alloc_block has refused.
theorem Kept.no_step (h : Kept s) (hlive : s.Live inum) (hbuf : buf.length ≤ NDIRECT * BLOCK_SIZE)
    (hfull : ¬ blocksNum buf.length ≤ s.freeBlocks.length + s.nblocks inum) :
    ¬ Step s (.writeFile junk now inum buf) s' := by
  intro hstep
  have hn := h.direct inum hlive.1
  have hn' := blocksNum_le_direct hbuf
  have hlt : s.nblocks inum < blocksNum buf.length := by omega
  have hlost : Lost (resize junk (s.inode inum) (s.nblocks inum) (blocksNum buf.length) s) := by
    simp only [resize, hlt, if_true]
    exact allocFrom_lost junk (by omega) (by omega)
  refine not_lost_of_step hstep ?_
  rw [Event.run, InodeManager.writeFile, if_neg (not_le.mpr (hbuf.trans_lt (by decide))),
    bind_ok (getInode_run hlive.1)]
  exact hlost.bind fun ino₁ => (writeData_sticky junk ino₁ buf).bind fun _ => putInode_sticky inum _

-- alloc_inode and remove_file leave an inode without blocks.
theorem Kept.direct_of_fresh {type : UInt16} (h : Kept s) (hself : s'.inode inum = (s.inode inum).fresh type)
    (hsame : ∀ j < INODE_NUM, j ≠ inum → Same s s' j) : ∀ j < INODE_NUM, s'.nblocks j ≤ NDIRECT := by
  intro j hj
  by_cases hne : j = inum
  · rw [hne, Fs.nblocks, hself]
    exact Nat.zero_le _
  · rw [(hsame j hj hne).nblocks]
    exact h.direct j hj

theorem Kept.allocInode (h : Kept s) (type : UInt32) (hlo : 1 ≤ inum) (hhi : inum < INODE_NUM)
    (hfree : (s.inode inum).type = 0) (hbefore : ∀ j, 1 ≤ j → j < inum → (s.inode j).type ≠ 0) :
    ∃ s', InodeManager.allocInode type s = .ok inum s' ∧ Kept s' ∧
      s'.inode inum = (s.inode inum).fresh type.toUInt16 ∧ ∀ j < INODE_NUM, j ≠ inum → Same s s' j := by
  rcases allocInode_cases type s with ⟨k, hk, hlt, hfirst, hzero, halloc⟩ | ⟨hfull, -⟩
  · obtain rfl : k = inum := by
      rcases Nat.lt_trichotomy k inum with hlt' | heq | hgt
      · exact absurd hzero (hbefore k hk hlt')
      · exact heq
      · exact absurd hfree (hfirst inum hlo hgt)
    have hself := inode_setInode_self (s := s) k ((s.inode k).fresh type.toUInt16)
    have hsame : ∀ j < INODE_NUM, j ≠ k → Same s (s.setInode k ((s.inode k).fresh type.toUInt16)) j :=
      fun j hj hne => h.same hj (h.separated.untouched_setInode hlt rfl hne fun slot hrefers =>
        ((h.separated.owns j hrefers.1).mine slot hrefers.2).marked)
    have hstep : Step s (.allocInode type) (s.setInode k ((s.inode k).fresh type.toUInt16)) :=
      step_iff.mpr ⟨by rw [Event.run, bind_ok halloc]; rfl, h.separated.exhausted⟩
    have hkept := h.step hstep trivial trivial (h.direct_of_fresh hself hsame)
    exact ⟨_, halloc, hkept, hself, hsame⟩
  · exact absurd hfree (hfull inum hlo hhi)

theorem Kept.removeFile (h : Kept s) (junk : Stack) (hlive : s.Live inum) :
    ∃ s', InodeManager.removeFile junk inum s = .ok () s' ∧ Kept s' ∧
      s'.inode inum = (s.inode inum).fresh 0 ∧ ∀ j < INODE_NUM, j ≠ inum → Same s s' j := by
  obtain ⟨s₁, hrun, hblocks, hexhausted, hmarks⟩ := h.separated.removeFile_run junk hlive
  have hself := inode_setInode_self (s := s₁) inum ((s.inode inum).fresh 0)
  have hsame : ∀ j < INODE_NUM, j ≠ inum → Same s (s₁.setInode inum ((s.inode inum).fresh 0)) j := by
    intro j hj hne
    refine h.same hj (h.separated.untouched_setInode hlive.1 hblocks hne fun slot hrefers => (hmarks _).mpr ?_)
    refine ⟨((h.separated.owns j hrefers.1).mine slot hrefers.2).marked, fun other hother heq => ?_⟩
    exact ((h.separated.owns inum hother.1).mine other hother.2).apart ⟨j, slot, hne, hrefers, heq.symm⟩
  have hstep : Step s (.removeFile junk inum) _ := step_iff.mpr ⟨hrun, hexhausted⟩
  have hkept := h.step hstep hlive trivial (h.direct_of_fresh hself hsame)
  exact ⟨_, hrun, hkept, hself, hsame⟩

theorem Initial.kept (h : Initial s) : Kept s where
  sound := sound_of_blank (initial_blank h)
  balanced := Ledger.Initial.balanced (l := ⟨s, fun _ => none⟩) ⟨h, rfl⟩
  direct inum _ := by
    rw [Fs.nblocks, (initial_blank h inum).1]
    exact Nat.zero_le _

-- The root is all there is on a new disk.
theorem Initial.root (h : Initial s) :
    ∃ memory, s = (format memory).setInode 1 (((format memory).inode 1).fresh T_DIR.toUInt16) := by
  obtain ⟨memory, hrun⟩ := h
  rw [inodeManager] at hrun
  rcases allocInode_cases T_DIR (format memory) with ⟨k, -, -, -, -, halloc⟩ | ⟨-, halloc⟩
  · rw [bind_ok halloc] at hrun
    by_cases hroot : k = 1
    · subst hroot
      rw [if_neg (by simp)] at hrun
      cases hrun
      exact ⟨memory, rfl⟩
    · rw [if_pos hroot] at hrun
      cases hrun
  · rw [bind_error halloc] at hrun
    cases hrun

end Kept

section Count

variable {s : Fs}

-- The pairs of a number below count and one below its size.
def slots (size : Nat → Nat) (count : Nat) : Finset (Σ _ : Nat, Nat) :=
  (Finset.range count).sigma fun i => Finset.range (size i)

theorem mem_slots {size : Nat → Nat} {count : Nat} {p : Σ _ : Nat, Nat} :
    p ∈ slots size count ↔ p.1 < count ∧ p.2 < size p.1 := by
  rw [slots, Finset.mem_sigma, Finset.mem_range, Finset.mem_range]

theorem card_slots (size : Nat → Nat) (count : Nat) : (slots size count).card = ∑ i ∈ Finset.range count, size i := by
  rw [slots, Finset.card_sigma]
  exact Finset.sum_congr rfl fun i _ => Finset.card_range _

attribute [irreducible] slots

theorem Kept.refers_of_slot (h : Kept s) {p : Σ _ : Nat, Nat} (hp : p ∈ slots s.nblocks INODE_NUM) :
    s.RefersTo p.1 (.data p.2) := by
  obtain ⟨hlt, hk⟩ := mem_slots.mp hp
  exact (refersTo_iff p.1 (.data p.2)).mpr (h.sound.refers hlt hk)

-- A marked block of the file area is one data block of one file.
theorem Kept.marked_eq (h : Kept s) :
    (Finset.Ico FILEBLOCK BLOCK_NUM).filter (fun b => s.usingBlocks b = true) =
      (slots s.nblocks INODE_NUM).image fun p => s.ref p.1 (.data p.2) := by
  have howned := h.separated.blockOwnership
  ext b
  rw [Finset.mem_filter, Finset.mem_Ico, Finset.mem_image]
  constructor
  · rintro ⟨⟨hlow, -⟩, hmarked⟩
    obtain ⟨inum, slot, hrefers, rfl⟩ : ∃ inum, s.RefersBlock inum b := h.balanced.referred b hlow hmarked
    cases slot with
    | data k => exact ⟨⟨inum, k⟩, mem_slots.mpr ⟨hrefers.1.1, hrefers.2⟩, rfl⟩
    | indirect =>
        have hgrow := hrefers.2.resolve_right fun hkeep => hkeep.1
        have hdirect := h.direct inum hrefers.1.1
        omega
  · rintro ⟨p, hp, rfl⟩
    obtain ⟨hlow, hhigh, hmarked, -⟩ := howned p.1 _ (h.refers_of_slot hp)
    exact ⟨⟨hlow, hhigh⟩, hmarked⟩

-- Every block of the file area is free or belongs to one file.
theorem Kept.count (h : Kept s) :
    s.freeBlocks.length + ∑ inum ∈ Finset.range INODE_NUM, s.nblocks inum = BLOCK_NUM - FILEBLOCK := by
  have hfree : s.freeBlocks.length =
      ((Finset.Ico FILEBLOCK BLOCK_NUM).filter fun b => ¬ s.usingBlocks b = true).card := by
    rw [← List.toFinset_card_of_nodup (nodup_freeBlocks s)]
    congr 1
    ext b
    rw [List.mem_toFinset, mem_freeBlocks, Finset.mem_filter, Finset.mem_Ico, Bool.not_eq_true, and_assoc]
  have hmarked : ((Finset.Ico FILEBLOCK BLOCK_NUM).filter fun b => s.usingBlocks b = true).card =
      ∑ inum ∈ Finset.range INODE_NUM, s.nblocks inum := by
    rw [h.marked_eq, Finset.card_image_of_injOn, card_slots]
    · intro p hp q hq heq
      obtain ⟨-, -, -, hinj⟩ := h.separated.blockOwnership q.1 _ (h.refers_of_slot hq)
      obtain ⟨hfile, hslot⟩ := hinj p.1 _ (h.refers_of_slot hp) heq
      exact Sigma.ext hfile (heq_of_eq (Slot.data.inj hslot))
  rw [hfree, ← hmarked, Nat.add_comm, Finset.card_filter_add_card_filter_not, Nat.card_Ico]

end Count

section Capacity

variable {s s' : Fs} {inum : Nat} {junk : Stack} {now : Times} {buf : Bytes}

-- Calls on files in use that stay within their direct blocks.
def Direct (s : Fs) : Event → Prop
  | .allocInode _ => True
  | .writeFile _ _ inum buf => s.Live inum ∧ buf.length ≤ NDIRECT * BLOCK_SIZE
  | .removeFile _ inum => s.Live inum

instance (s : Fs) (event : Event) : Decidable (Direct s event) :=
  match event with
  | .allocInode _ => inferInstanceAs (Decidable True)
  | .writeFile _ _ inum buf =>
      inferInstanceAs (Decidable ((inum < INODE_NUM ∧ (s.inode inum).type ≠ 0) ∧ buf.length ≤ NDIRECT * BLOCK_SIZE))
  | .removeFile _ inum => inferInstanceAs (Decidable (inum < INODE_NUM ∧ (s.inode inum).type ≠ 0))

theorem Kept.written_of_step (h : Kept s) (hlive : s.Live inum) (hbuf : buf.length ≤ NDIRECT * BLOCK_SIZE)
    (hstep : Step s (.writeFile junk now inum buf) s') : Kept s' := by
  by_cases hfree : blocksNum buf.length ≤ s.freeBlocks.length + s.nblocks inum
  · obtain ⟨s₁, hrun, hkept, -⟩ := h.writeFile junk now hlive hbuf hfree
    obtain rfl : s₁ = s' := (EStateM.Result.ok.inj (hrun.symm.trans (step_iff.mp hstep).1)).2
    exact hkept
  · exact absurd hstep (h.no_step hlive hbuf hfree)

theorem Kept.next {event : Event} (h : Kept s) (hdirect : Direct s event) (hstep : Step s event s') : Kept s' := by
  have hrun := (step_iff.mp hstep).1
  cases event with
  | allocInode type =>
      rw [Event.run] at hrun
      rcases allocInode_cases type s with ⟨k, hlo, hhi, hbefore, hfree, halloc⟩ | ⟨-, halloc⟩
      · obtain ⟨s₁, halloc₁, hkept, -⟩ := h.allocInode type hlo hhi hfree hbefore
        rw [bind_ok halloc₁] at hrun
        cases hrun
        exact hkept
      · rw [bind_error halloc] at hrun
        cases hrun
  | writeFile junk now inum buf => exact h.written_of_step hdirect.1 hdirect.2 hstep
  | removeFile junk inum =>
      obtain ⟨s₁, hremove, hkept, -⟩ := h.removeFile junk hdirect
      rw [Event.run, hremove] at hrun
      cases hrun
      exact hkept

theorem reachable_kept (hr : Reachable (Guarded Direct Step) Initial s) : Kept s :=
  hr.invariant Kept (fun _ => Initial.kept) fun _ _ _ h hstep => h.next hstep.1 hstep.2

-- The files of the store can take all blocks of the file area, and no call loses one: write_file
-- finds its blocks exactly when those of the other files leave enough of them.
theorem write_finds_blocks_iff (hr : Reachable (Guarded Direct Step) Initial s) (junk : Stack) (now : Times)
    (hlive : s.Live inum) (hbuf : buf.length ≤ NDIRECT * BLOCK_SIZE) :
    (∃ s', Step s (.writeFile junk now inum buf) s') ↔
      ∑ j ∈ (Finset.range INODE_NUM).erase inum, s.nblocks j + blocksNum buf.length ≤ BLOCK_NUM - FILEBLOCK := by
  have h := reachable_kept hr
  have hcount := h.count
  rw [← Finset.sum_erase_add _ _ (Finset.mem_range.mpr hlive.1)] at hcount
  constructor
  · rintro ⟨s', hstep⟩
    by_contra hfull
    exact h.no_step hlive hbuf (by omega) hstep
  · intro hroom
    obtain ⟨s', hrun, hwritten, -⟩ := h.exists_written junk now hlive hbuf (by omega)
    exact ⟨s', step_iff.mpr ⟨hrun, hwritten.exhausted⟩⟩

-- Beside another file there is room for one of all the direct blocks.
theorem write_finds_blocks_files : ∃ s : Fs, s.nblocks 2 = 1 ∧
    ∃ s', Step s (.writeFile .zero ⟨1, 1, 1⟩ 3 (List.replicate (NDIRECT * BLOCK_SIZE) 7)) s' := by
  have hrun : (execute (fun s event => if Direct s event then step s event else none) startFs twoFiles).map
      (fun s => ((s.inode 3).type, s.nblocks 2, ∑ j ∈ (Finset.range INODE_NUM).erase 3, s.nblocks j)) =
      some (2, 1, 1) := by
    decide +kernel
  obtain ⟨s, hs, hfields⟩ := Option.map_eq_some_iff.mp hrun
  simp only [Prod.mk.injEq] at hfields
  obtain ⟨htype, hblocks, hsum⟩ := hfields
  have hr : Reachable (Guarded Direct Step) Initial s := .executed (.start initial_startFs) hs
  have hlive : s.Live 3 := ⟨by decide, by rw [htype]; decide⟩
  have hlength : (List.replicate (NDIRECT * BLOCK_SIZE) (7 : UInt8)).length = NDIRECT * BLOCK_SIZE :=
    List.length_replicate
  refine ⟨s, hblocks, (write_finds_blocks_iff hr .zero ⟨1, 1, 1⟩ hlive hlength.le).mpr ?_⟩
  rw [hsum, hlength]
  decide

end Capacity

end CseLabs.InodeManager
