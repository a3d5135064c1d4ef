import CseLabs.InodeManager.Runs

namespace CseLabs.InodeManager

section Slots

-- The places of an inode that hold block ids.
inductive Slot
  | data (k : Nat)
  | indirect
  deriving DecidableEq

-- What get_nth_blockid finds.
def Fs.blockid (s : Fs) (ino : Inode) (k : Nat) : Nat :=
  if h : k < NDIRECT then (ino.blocks ⟨k, Nat.lt_succ_of_lt h⟩).toNat
  else ((s.blocks ino.indirect.toNat).word (k - NDIRECT)).toNat

def Fs.at (s : Fs) (ino : Inode) : Slot → Nat
  | .data k => s.blockid ino k
  | .indirect => ino.indirect.toNat

-- The slots in use of a file of n blocks. A file that has shrunk keeps its indirect block;
-- keep says whether that block counts.
def Uses (ino : Inode) (n : Nat) (keep : Prop) : Slot → Prop
  | .data k => k < n
  | .indirect => NDIRECT < n ∨ keep ∧ ino.indirect ≠ 0

-- A block of the file area that is marked and not among those of the other files.
structure Mine (s : Fs) (others : Nat → Prop) (b : Nat) : Prop where
  low : FILEBLOCK ≤ b
  high : b < BLOCK_NUM
  marked : s.usingBlocks b = true
  apart : ¬ others b

-- The blocks of one file. No two slots hold the same block.
structure Owns (s : Fs) (ino : Inode) (n : Nat) (keep : Prop) (others : Nat → Prop) : Prop where
  mine : ∀ slot, Uses ino n keep slot → Mine s others (s.at ino slot)
  inj : ∀ a b, Uses ino n keep a → Uses ino n keep b → s.at ino a = s.at ino b → a = b

variable {s s' : Fs} {ino ino' : Inode} {n : Nat} {keep : Prop} {others : Nat → Prop}

theorem blockid_congr {k : Nat} (hblocks : ino'.blocks = ino.blocks)
    (h : NDIRECT ≤ k → s'.blocks ino.indirect.toNat = s.blocks ino.indirect.toNat) :
    s'.blockid ino' k = s.blockid ino k := by
  have hind : ino'.indirect = ino.indirect := congrFun hblocks _
  by_cases hk : k < NDIRECT
  · simp only [Fs.blockid, hk, dif_pos, hblocks]
  · simp only [Fs.blockid, hk, dif_neg, not_false_iff, hind, h (by omega)]

theorem Uses.indirect_of_lt (h : NDIRECT < n) : Uses ino n keep .indirect := .inl h

theorem Uses.mono {n' : Nat} {keep' : Prop} {slot : Slot} (hn : n ≤ n') (hkeep : keep → keep')
    (h : Uses ino n keep slot) : Uses ino n' keep' slot := by
  cases slot with
  | data k => exact h.trans_le hn
  | indirect => exact h.imp (fun hlt => hlt.trans_le hn) (fun hk => ⟨hkeep hk.1, hk.2⟩)

theorem Owns.mono {n' : Nat} {keep' : Prop} (hn : n' ≤ n) (hkeep : keep' → keep)
    (h : Owns s ino n keep others) : Owns s ino n' keep' others where
  mine slot hu := h.mine slot (hu.mono hn hkeep)
  inj a b ha hb := h.inj a b (ha.mono hn hkeep) (hb.mono hn hkeep)

theorem Owns.indirect_ne_zero (h : Owns s ino n keep others) (hn : NDIRECT < n) : ino.indirect ≠ 0 := by
  intro hzero
  have hlow := (h.mine .indirect (.indirect_of_lt hn)).low
  simp only [Fs.at, hzero] at hlow
  exact absurd hlow (by decide)

theorem getNthBlockid_run {junk : Stack} {k : Nat} (hk : k < MAXFILE)
    (hind : NDIRECT ≤ k → ino.indirect ≠ 0 ∧ ino.indirect.toNat < BLOCK_NUM) :
    getNthBlockid junk ino k s = .ok (s.blockid ino k) s := by
  by_cases hlt : k < NDIRECT
  · simp only [getNthBlockid, Fs.blockid, hlt, dif_pos]
    rfl
  · obtain ⟨hne, hnum⟩ := hind (by omega)
    simp only [getNthBlockid, Fs.blockid, hlt, dif_neg, not_false_iff, hk, if_pos, hne, if_neg]
    rw [bind_ok (readBlock_run hnum)]
    rfl

theorem Owns.getNthBlockid {junk : Stack} {k : Nat} (h : Owns s ino n keep others) (hk : k < n)
    (hn : n ≤ MAXFILE) : getNthBlockid junk ino k s = .ok (s.blockid ino k) s := by
  refine getNthBlockid_run (by omega) fun hle => ?_
  have hlt : NDIRECT < n := by omega
  exact ⟨h.indirect_ne_zero hlt, (h.mine .indirect (.indirect_of_lt hlt)).high⟩

-- The same slots, found in another state.
theorem Owns.transfer (h : Owns s ino n keep others) (hblocks : ino'.blocks = ino.blocks)
    (hat : ∀ slot, Uses ino n keep slot → s'.at ino' slot = s.at ino slot)
    (hmarked : ∀ slot, Uses ino n keep slot → s'.usingBlocks (s.at ino slot) = true) :
    Owns s' ino' n keep others := by
  have huses : ∀ slot, Uses ino' n keep slot → Uses ino n keep slot := by
    intro slot hu
    cases slot with
    | data k => exact hu
    | indirect => exact hu.imp_right fun hk => ⟨hk.1, fun hzero => hk.2 ((congrFun hblocks _).trans hzero)⟩
  constructor
  · intro slot hu
    have hmine := h.mine slot (huses slot hu)
    rw [hat slot (huses slot hu)]
    exact ⟨hmine.low, hmine.high, hmarked slot (huses slot hu), hmine.apart⟩
  · intro a b ha hb heq
    rw [hat a (huses a ha), hat b (huses b hb)] at heq
    exact h.inj a b (huses a ha) (huses b hb) heq

-- One more slot, which holds a block that was free.
theorem Owns.extend {n' id : Nat} (fresh : Slot) (h : Owns s ino n keep others)
    (hothers : ∀ b, others b → s.usingBlocks b = true)
    (hlow : FILEBLOCK ≤ id) (hhigh : id < BLOCK_NUM) (hfree : s.usingBlocks id = false)
    (husing : s'.usingBlocks = Function.update s.usingBlocks id true)
    (hfresh : s'.at ino' fresh = id)
    (hold : ∀ slot, Uses ino' n' keep slot → slot ≠ fresh →
      Uses ino n keep slot ∧ s'.at ino' slot = s.at ino slot) :
    Owns s' ino' n' keep others := by
  have hne : ∀ slot, Uses ino n keep slot → s.at ino slot ≠ id := by
    intro slot hu heq
    have hmarked := (h.mine slot hu).marked
    rw [heq, hfree] at hmarked
    cases hmarked
  constructor
  · intro slot hu
    by_cases he : slot = fresh
    · subst slot
      rw [hfresh]
      refine ⟨hlow, hhigh, by rw [husing, Function.update_self], fun hother => ?_⟩
      rw [hothers id hother] at hfree
      cases hfree
    · obtain ⟨huold, hat⟩ := hold slot hu he
      have hmine := h.mine slot huold
      rw [hat]
      refine ⟨hmine.low, hmine.high, ?_, hmine.apart⟩
      rw [husing, Function.update_of_ne (hne slot huold)]
      exact hmine.marked
  · intro a b ha hb heq
    by_cases hea : a = fresh <;> by_cases heb : b = fresh
    · rw [hea, heb]
    · obtain ⟨huold, hat⟩ := hold b hb heb
      rw [hea, hfresh, hat] at heq
      exact absurd heq.symm (hne b huold)
    · obtain ⟨huold, hat⟩ := hold a ha hea
      rw [heb, hfresh, hat] at heq
      exact absurd heq (hne a huold)
    · obtain ⟨hua, hata⟩ := hold a ha hea
      obtain ⟨hub, hatb⟩ := hold b hb heb
      rw [hata, hatb] at heq
      exact h.inj a b hua hub heq

end Slots

section Growing

-- A file of n blocks has become one of n' blocks.
structure Grown (s s' : Fs) (ino ino' : Inode) (n n' : Nat) (keep : Prop) (others : Nat → Prop) : Prop where
  owns : Owns s' ino' n' keep others
  same : ∀ k < n, s'.blockid ino' k = s.blockid ino k
  blocks : ∀ b, b < FILEBLOCK ∨ others b → s'.blocks b = s.blocks b
  marks : ∀ b, s.usingBlocks b = true → s'.usingBlocks b = true
  attrs : ino' = { ino with blocks := ino'.blocks }
  exhausted : s'.exhausted = false

variable {s s' : Fs} {ino ino' : Inode} {n : Nat} {keep : Prop} {others : Nat → Prop} {junk : Stack}

theorem Grown.refl (h : Owns s ino n keep others) (hexhausted : s.exhausted = false) :
    Grown s s ino ino n n keep others :=
  ⟨h, fun _ _ => rfl, fun _ _ => rfl, fun _ h => h, rfl, hexhausted⟩

theorem Grown.trans {s₁ s₂ s₃ : Fs} {ino₁ ino₂ ino₃ : Inode} {n₁ n₂ n₃ : Nat} (hn : n₁ ≤ n₂)
    (h : Grown s₁ s₂ ino₁ ino₂ n₁ n₂ keep others) (h' : Grown s₂ s₃ ino₂ ino₃ n₂ n₃ keep others) :
    Grown s₁ s₃ ino₁ ino₃ n₁ n₃ keep others where
  owns := h'.owns
  same k hk := (h'.same k (hk.trans_le hn)).trans (h.same k hk)
  blocks b hb := (h'.blocks b hb).trans (h.blocks b hb)
  marks b hb := h'.marks b (h.marks b hb)
  attrs := by
    rw [h'.attrs, h.attrs]
  exhausted := h'.exhausted

theorem mark_marks (s : Fs) (id b : Nat) (h : s.usingBlocks b = true) :
    (s.mark id true).usingBlocks b = true := by
  show Function.update s.usingBlocks id true b = true
  by_cases he : b = id
  · rw [he, Function.update_self]
  · rwa [Function.update_of_ne he]

theorem indirect_setBlock_of_lt (ino : Inode) {k : Fin (NDIRECT + 1)} (h : k.val < NDIRECT) (id : Nat) :
    (ino.setBlock k id).indirect = ino.indirect := by
  refine Function.update_of_ne ?_ ..
  rintro rfl
  exact absurd h (by simp)

theorem blockid_setBlock_data (s : Fs) (ino : Inode) {j k id : Nat} (hk : k < NDIRECT) (hj : j < NDIRECT)
    (hid : id < BLOCK_NUM) :
    s.blockid (ino.setBlock ⟨k, Nat.lt_succ_of_lt hk⟩ id) j = if j = k then id else s.blockid ino j := by
  simp only [Fs.blockid, hj, dif_pos, Inode.setBlock]
  by_cases he : j = k
  · subst j
    rw [Function.update_self, if_pos rfl, toNat_ofNat_id hid]
  · rw [Function.update_of_ne (by simpa using he), if_neg he]

-- Block n of the file gets the new id, and the indirect block stays where it is.
theorem Owns.extend_data {id : Nat} (h : Owns s ino n keep others)
    (hothers : ∀ b, others b → s.usingBlocks b = true)
    (hlow : FILEBLOCK ≤ id) (hhigh : id < BLOCK_NUM) (hfree : s.usingBlocks id = false)
    (husing : s'.usingBlocks = Function.update s.usingBlocks id true)
    (hblockid : ∀ k < n + 1, s'.blockid ino' k = if k = n then id else s.blockid ino k)
    (hindirect : Uses ino' (n + 1) keep .indirect →
      Uses ino n keep .indirect ∧ s'.at ino' .indirect = s.at ino .indirect) :
    Owns s' ino' (n + 1) keep others ∧ ∀ k < n, s'.blockid ino' k = s.blockid ino k := by
  refine ⟨h.extend (.data n) hothers hlow hhigh hfree husing ?_ ?_, ?_⟩
  · exact (hblockid n (by omega)).trans (if_pos rfl)
  · intro slot hu hne
    cases slot with
    | data k =>
        have hk : k ≠ n := fun heq => hne (by rw [heq])
        have hlt : k < n + 1 := hu
        exact ⟨show k < n by omega, (hblockid k hlt).trans (if_neg hk)⟩
    | indirect => exact hindirect hu
  · intro k hk
    rw [hblockid k (by omega), if_neg (by omega)]

theorem Owns.grow_direct {id : Nat} (h : Owns s ino n keep others) (hn : n < NDIRECT)
    (hothers : ∀ b, others b → s.usingBlocks b = true) (hexhausted : s.exhausted = false)
    (hlow : FILEBLOCK ≤ id) (hhigh : id < BLOCK_NUM) (hfree : s.usingBlocks id = false) :
    Grown s (s.mark id true) ino (ino.setBlock ⟨n, Nat.lt_succ_of_lt hn⟩ id) n (n + 1) keep others := by
  have hind := indirect_setBlock_of_lt ino (k := ⟨n, Nat.lt_succ_of_lt hn⟩) hn id
  have hblockid : ∀ j < n + 1, (s.mark id true).blockid (ino.setBlock ⟨n, Nat.lt_succ_of_lt hn⟩ id) j =
      if j = n then id else s.blockid ino j :=
    fun j hj => blockid_setBlock_data _ ino hn (by omega) hhigh
  obtain ⟨howns, hkept⟩ := h.extend_data hothers hlow hhigh hfree rfl hblockid fun hu => by
    refine ⟨?_, by simp only [Fs.at, hind]⟩
    rcases hu with hlt | hkeep
    · omega
    · exact .inr (hind ▸ hkeep)
  exact ⟨howns, hkept, fun _ _ => rfl, mark_marks s id, rfl, hexhausted⟩

theorem blockid_setBlock_last (s : Fs) (ino : Inode) {j : Nat} (hj : j < NDIRECT) (id : Nat) :
    s.blockid (ino.setBlock (Fin.last NDIRECT) id) j = s.blockid ino j := by
  simp only [Fs.blockid, hj, dif_pos, Inode.setBlock]
  rw [Function.update_of_ne]
  intro heq
  have hlast : j = NDIRECT := congrArg Fin.val heq
  omega

theorem indirect_setBlock_last (ino : Inode) {id : Nat} (hid : id < BLOCK_NUM) :
    (ino.setBlock (Fin.last NDIRECT) id).indirect.toNat = id := by
  show (Function.update ino.blocks (Fin.last NDIRECT) (UInt32.ofNat id) (Fin.last NDIRECT)).toNat = id
  rw [Function.update_self, toNat_ofNat_id hid]

-- The indirect block is allocated when the first block past the direct ones is.
theorem Owns.grow_indirect {id : Nat} (h : Owns s ino n keep others) (hn : n = NDIRECT)
    (hothers : ∀ b, others b → s.usingBlocks b = true) (hexhausted : s.exhausted = false)
    (hlow : FILEBLOCK ≤ id) (hhigh : id < BLOCK_NUM) (hfree : s.usingBlocks id = false) :
    Grown s (s.mark id true) ino (ino.setBlock (Fin.last NDIRECT) id) n n keep others := by
  refine ⟨?_, ?_, fun _ _ => rfl, mark_marks s id, rfl, hexhausted⟩
  · refine h.extend .indirect hothers hlow hhigh hfree rfl ?_ ?_
    · exact indirect_setBlock_last ino hhigh
    · intro slot hu hne
      cases slot with
      | data k =>
          have hk : k < n := hu
          exact ⟨hk, blockid_setBlock_last _ ino (by omega) id⟩
      | indirect => exact absurd rfl hne
  · intro k hk
    exact blockid_setBlock_last _ ino (by omega) id

theorem blockid_setWord {k n id : Nat} (s : Fs) (ino : Inode) (hn : NDIRECT ≤ n) (hmax : n < MAXFILE)
    (hid : id < BLOCK_NUM) (hk : k < n + 1) :
    ((s.mark id true).setBlock ino.indirect.toNat
      ((s.blocks ino.indirect.toNat).setWord (n - NDIRECT) (UInt32.ofNat id))).blockid ino k =
      if k = n then id else s.blockid ino k := by
  obtain ⟨hblock, hdirect, hmaxfile, -⟩ := file_sizes
  by_cases hlt : k < NDIRECT
  · simp only [Fs.blockid, hlt, dif_pos]
    rw [if_neg (by omega)]
  · simp only [Fs.blockid, hlt, dif_neg, not_false_iff, Fs.setBlock, Function.update_self]
    rw [Block.word_setWord _ _ (by omega)]
    by_cases he : k = n
    · rw [if_pos (by rw [he]), if_pos he, toNat_ofNat_id hid]
    · rw [if_neg (by omega), if_neg he]

-- The table in the indirect block gets its next entry.
theorem Owns.grow_table {id : Nat} (h : Owns s ino n keep others) (hn : NDIRECT ≤ n) (hmax : n < MAXFILE)
    (hkeep : keep) (hind : ino.indirect ≠ 0)
    (hothers : ∀ b, others b → s.usingBlocks b = true) (hexhausted : s.exhausted = false)
    (hlow : FILEBLOCK ≤ id) (hhigh : id < BLOCK_NUM) (hfree : s.usingBlocks id = false) :
    Grown s ((s.mark id true).setBlock ino.indirect.toNat
        ((s.blocks ino.indirect.toNat).setWord (n - NDIRECT) (UInt32.ofNat id))) ino ino n (n + 1) keep others := by
  have huses : Uses ino n keep .indirect := .inr ⟨hkeep, hind⟩
  have hmine := h.mine .indirect huses
  have hblockid : ∀ k < n + 1, ((s.mark id true).setBlock ino.indirect.toNat
      ((s.blocks ino.indirect.toNat).setWord (n - NDIRECT) (UInt32.ofNat id))).blockid ino k =
      if k = n then id else s.blockid ino k := fun k => blockid_setWord s ino hn hmax hhigh
  obtain ⟨howns, hkept⟩ := h.extend_data hothers hlow hhigh hfree rfl hblockid fun _ => ⟨huses, rfl⟩
  refine ⟨howns, hkept, ?_, mark_marks s id, rfl, hexhausted⟩
  intro b hb
  refine Function.update_of_ne ?_ ..
  rintro rfl
  have hlow := hmine.low
  exact hb.elim (fun hlt => absurd hlow (by simpa [Fs.at] using hlt)) hmine.apart

theorem allocEntry_sticky (junk : Stack) (ino : Inode) (n : Nat) : Sticky (allocEntry junk ino n) :=
  (readBlock_sticky _ _).bind fun _ => allocBlock_sticky.bind fun _ =>
    (writeBlock_sticky _ _).bind fun _ => .pure _

theorem allocNthBlock_sticky (junk : Stack) (ino : Inode) (n : Nat) : Sticky (allocNthBlock junk ino n) := by
  unfold allocNthBlock
  split
  · exact allocBlock_sticky.bind fun _ => .pure _
  · split
    · split
      · exact allocBlock_sticky.bind fun _ => allocEntry_sticky junk _ n
      · exact allocEntry_sticky junk ino n
    · exact .throw _

theorem allocFrom_sticky (junk : Stack) (ino : Inode) (n count : Nat) : Sticky (allocFrom junk ino n count) := by
  induction count generalizing ino n with
  | zero => exact .pure _
  | succ count ih => exact (allocNthBlock_sticky junk ino n).bind fun ino' => ih ino' (n + 1)

theorem Owns.allocEntry (junk : Stack) (h : Owns s ino n keep others) (hn : NDIRECT ≤ n) (hmax : n < MAXFILE)
    (hkeep : keep) (hind : ino.indirect ≠ 0) (hothers : ∀ b, others b → s.usingBlocks b = true)
    (hexhausted : s.exhausted = false) :
    (∃ s', allocEntry junk ino n s = .ok ino s' ∧ Grown s s' ino ino n (n + 1) keep others) ∨
      Lost (allocEntry junk ino n s) := by
  have hhigh : ino.indirect.toNat < BLOCK_NUM := (h.mine .indirect (.inr ⟨hkeep, hind⟩)).high
  rw [InodeManager.allocEntry, bind_ok (readBlock_run hhigh)]
  rcases allocBlock_run s with ⟨id, hlow, hid, hfree, -, hrun⟩ | ⟨-, hrun⟩
  · rw [bind_ok hrun, bind_ok (writeBlock_run hhigh)]
    exact .inl ⟨_, rfl, h.grow_table hn hmax hkeep hind hothers hexhausted hlow hid hfree⟩
  · rw [bind_ok hrun, bind_ok (writeBlock_run hhigh)]
    exact .inr rfl

theorem Owns.allocNthBlock (junk : Stack) (h : Owns s ino n keep others) (hmax : n < MAXFILE)
    (hkeep : NDIRECT ≤ n → keep) (hothers : ∀ b, others b → s.usingBlocks b = true)
    (hexhausted : s.exhausted = false) :
    (∃ ino' s', allocNthBlock junk ino n s = .ok ino' s' ∧ Grown s s' ino ino' n (n + 1) keep others) ∨
      Lost (allocNthBlock junk ino n s) := by
  by_cases hn : n < NDIRECT
  · simp only [InodeManager.allocNthBlock, hn, dif_pos]
    rcases allocBlock_run s with ⟨id, hlow, hhigh, hfree, -, hrun⟩ | ⟨-, hrun⟩
    · rw [bind_ok hrun]
      exact .inl ⟨_, _, rfl, h.grow_direct hn hothers hexhausted hlow hhigh hfree⟩
    · rw [bind_ok hrun]
      exact .inr rfl
  · have hle : NDIRECT ≤ n := by omega
    simp only [InodeManager.allocNthBlock, hn, dif_neg, not_false_iff, hmax, if_pos]
    by_cases hind : ino.indirect = 0
    · -- a file past the direct blocks has its indirect block
      have heq : n = NDIRECT := by
        by_contra hne
        exact h.indirect_ne_zero (by omega) hind
      rw [if_pos hind]
      rcases allocBlock_run s with ⟨id, hlow, hhigh, hfree, -, hrun⟩ | ⟨-, hrun⟩
      · rw [bind_ok hrun]
        have hgrown := h.grow_indirect heq hothers hexhausted hlow hhigh hfree
        have hne : (ino.setBlock (Fin.last NDIRECT) id).indirect ≠ 0 := by
          intro hzero
          have hid := indirect_setBlock_last ino hhigh
          rw [hzero] at hid
          exact absurd hlow (by rw [← hid]; decide)
        rcases hgrown.owns.allocEntry junk hle hmax (hkeep hle) hne
          (fun b hb => hgrown.marks b (hothers b hb)) hexhausted with ⟨s', hs', hgrown'⟩ | hlost
        · exact .inl ⟨_, s', hs', hgrown.trans le_rfl hgrown'⟩
        · exact .inr hlost
      · rw [bind_ok hrun]
        exact .inr (allocEntry_sticky junk _ n _ rfl)
    · rw [if_neg hind]
      rcases h.allocEntry junk hle hmax (hkeep hle) hind hothers hexhausted with ⟨s', hs', hgrown⟩ | hlost
      · exact .inl ⟨ino, s', hs', hgrown⟩
      · exact .inr hlost

theorem Owns.allocFrom (junk : Stack) {count : Nat} (h : Owns s ino n keep others) (hmax : n + count ≤ MAXFILE)
    (hkeep : NDIRECT < n + count → keep) (hothers : ∀ b, others b → s.usingBlocks b = true)
    (hexhausted : s.exhausted = false) :
    (∃ ino' s', allocFrom junk ino n count s = .ok ino' s' ∧
      Grown s s' ino ino' n (n + count) keep others) ∨ Lost (allocFrom junk ino n count s) := by
  induction count generalizing s ino n with
  | zero => exact .inl ⟨ino, s, rfl, .refl h hexhausted⟩
  | succ count ih =>
      rw [InodeManager.allocFrom]
      rcases h.allocNthBlock junk (by omega) (fun _ => hkeep (by omega)) hothers hexhausted with
        ⟨ino₁, s₁, hrun, hgrown⟩ | hlost
      · rw [bind_ok hrun]
        rcases ih hgrown.owns (by omega) (fun _ => hkeep (by omega))
          (fun b hb => hgrown.marks b (hothers b hb)) hgrown.exhausted with ⟨ino', s', hrest, hgrown'⟩ | hlost
        · have hboth := hgrown.trans (Nat.le_succ n) hgrown'
          rw [Nat.add_right_comm, Nat.add_assoc] at hboth
          exact .inl ⟨ino', s', hrest, hboth⟩
        · exact .inr hlost
      · exact .inr (hlost.bind fun ino' => allocFrom_sticky junk ino' (n + 1) count)

end Growing

end CseLabs.InodeManager
