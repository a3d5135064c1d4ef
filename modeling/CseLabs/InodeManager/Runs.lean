import CseLabs.InodeManager
import Mathlib.Tactic

namespace CseLabs.InodeManager

section Sizes

theorem file_sizes : BLOCK_SIZE = 512 ∧ NDIRECT = 100 ∧ MAXFILE = 228 ∧ NINDIRECT = 128 := ⟨rfl, rfl, rfl, rfl⟩

theorem disk_sizes : BLOCK_NUM = 32768 ∧ FILEBLOCK = 1035 ∧ INODE_NUM = 1024 := ⟨rfl, rfl, rfl⟩

theorem iblock_eq (inum : Nat) : IBLOCK inum BLOCK_NUM = inum + 11 := by
  have hdiv : BLOCK_NUM / BPB = 8 := rfl
  rw [IBLOCK, IPB, hdiv, Nat.div_one]
  omega

theorem iblock_lt_fileblock {inum : Nat} (h : inum < INODE_NUM) : IBLOCK inum BLOCK_NUM < FILEBLOCK := by
  obtain ⟨-, hfile, hinode⟩ := disk_sizes
  rw [iblock_eq]
  omega

theorem iblock_inj {i j : Nat} : IBLOCK i BLOCK_NUM = IBLOCK j BLOCK_NUM ↔ i = j := by
  rw [iblock_eq, iblock_eq]
  omega

theorem iblock_lt {inum : Nat} (h : inum < INODE_NUM) : IBLOCK inum BLOCK_NUM < BLOCK_NUM :=
  (iblock_lt_fileblock h).trans (by decide)

-- A file within the limit has at most MAXFILE blocks.
theorem blocksNum_le {size : Nat} (h : size ≤ MAXFILE * BLOCK_SIZE) : blocksNum size ≤ MAXFILE := by
  obtain ⟨hblock, -, hmax, -⟩ := file_sizes
  rw [hmax, hblock] at h
  rw [blocksNum, hmax, hblock]
  split <;> omega

theorem lt_blocksNum_iff {size k : Nat} : k < blocksNum size ↔ k * BLOCK_SIZE < size := by
  obtain ⟨hblock, -⟩ := file_sizes
  rw [blocksNum, hblock]
  split <;> omega

theorem blocksNum_eq (size : Nat) :
    blocksNum size = size / BLOCK_SIZE + if size % BLOCK_SIZE = 0 then 0 else 1 := by
  obtain ⟨hblock, -⟩ := file_sizes
  rw [blocksNum, hblock]
  split <;> split <;> omega

theorem toNat_ofNat_id {id : Nat} (h : id < BLOCK_NUM) : (UInt32.ofNat id).toNat = id := by
  obtain ⟨hnum, -⟩ := disk_sizes
  exact UInt32.toNat_ofNat_of_lt' (by rw [hnum] at h; exact h.trans (by decide))

end Sizes

section Monad

variable {α β : Type} {s s' : Fs}

theorem bind_ok {x : Im α} {f : α → Im β} {a : α} (h : x s = .ok a s') : (x >>= f) s = f a s' := by
  show EStateM.bind x f s = _
  rw [EStateM.bind, h]

theorem bind_error {x : Im α} {f : α → Im β} {e : Fault} (h : x s = .error e s') : (x >>= f) s = .error e s' := by
  show EStateM.bind x f s = _
  rw [EStateM.bind, h]

theorem readBlock_run {id : Nat} {buf : Data} (h : id < BLOCK_NUM) :
    readBlock id buf s = .ok (s.blocks id) s := by
  show EStateM.Result.ok (if id < BLOCK_NUM then s.blocks id else buf) s = _
  rw [if_pos h]

def Fs.setBlock (s : Fs) (id : Nat) (buf : Data) : Fs :=
  { s with blocks := Function.update s.blocks id buf }

theorem writeBlock_run {id : Nat} {buf : Data} (h : id < BLOCK_NUM) :
    writeBlock id buf s = .ok () (s.setBlock id buf) := by
  show EStateM.Result.ok () (if id < BLOCK_NUM then s.setBlock id buf else s) = _
  rw [if_pos h]

theorem writeBlock_out {id : Nat} {buf : Data} (h : ¬ id < BLOCK_NUM) : writeBlock id buf s = .ok () s := by
  show EStateM.Result.ok () (if id < BLOCK_NUM then s.setBlock id buf else s) = _
  rw [if_neg h]

def Fs.mark (s : Fs) (id : Nat) (inUse : Bool) : Fs :=
  { s with usingBlocks := Function.update s.usingBlocks id inUse }

theorem freeBlock_run (id : Nat) : freeBlock id s = .ok () (s.mark id false) := rfl

theorem allocBlock_eq (s : Fs) :
    allocBlock s = (firstFree s.usingBlocks).elim (.ok 0 { s with exhausted := true })
      (fun id => .ok id (s.mark id true)) := by
  have hget : (get : Im Fs) s = .ok s s := rfl
  rw [allocBlock, bind_ok hget]
  cases firstFree s.usingBlocks <;> rfl

-- The least free block, or 0.
theorem allocBlock_run (s : Fs) :
    (∃ id, FILEBLOCK ≤ id ∧ id < BLOCK_NUM ∧ s.usingBlocks id = false ∧
      (∀ k, FILEBLOCK ≤ k → k < id → s.usingBlocks k = true) ∧
      allocBlock s = .ok id (s.mark id true)) ∨
    (∀ k, FILEBLOCK ≤ k → k < BLOCK_NUM → s.usingBlocks k = true) ∧
      allocBlock s = .ok 0 { s with exhausted := true } := by
  have hrun := allocBlock_eq s
  cases hfind : firstFree s.usingBlocks with
  | none =>
      refine .inr ⟨fun k hlo hhi => ?_, by rw [hrun, hfind]; rfl⟩
      have hall := List.find?_eq_none.mp hfind k (List.mem_range'_1.mpr (by omega))
      simpa using hall
  | some id =>
      obtain ⟨hfree, hmem, hbefore⟩ := List.find?_range'_eq_some.mp hfind
      obtain ⟨hlo, hhi⟩ := List.mem_range'_1.mp hmem
      refine .inl ⟨id, hlo, by omega, by simpa using hfree, fun k hk hlt => ?_, by rw [hrun, hfind]; rfl⟩
      simpa using hbefore k hk hlt

end Monad

section Lost

variable {α β : Type} {s : Fs}

def finalState : EStateM.Result Fault Fs α → Fs
  | .ok _ s => s
  | .error _ s => s

-- On the way some call of alloc_block has returned 0.
def Lost (r : EStateM.Result Fault Fs α) : Prop := (finalState r).exhausted = true

-- Once that has happened it stays on record.
def Sticky (x : Im α) : Prop := ∀ s : Fs, s.exhausted = true → Lost (x s)

theorem Lost.bind {x : Im α} {f : α → Im β} (h : Lost (x s)) (hf : ∀ a, Sticky (f a)) :
    Lost ((x >>= f) s) := by
  cases hx : x s with
  | ok a s' =>
      rw [bind_ok hx]
      rw [hx] at h
      exact hf a s' h
  | error e s' =>
      rw [bind_error hx]
      rwa [hx] at h

theorem Sticky.bind {x : Im α} {f : α → Im β} (hx : Sticky x) (hf : ∀ a, Sticky (f a)) :
    Sticky (x >>= f) :=
  fun s h => (hx s h).bind hf

theorem Sticky.pure (a : α) : Sticky (pure a) := fun _ h => h

theorem Sticky.throw (e : Fault) : Sticky (throw e : Im α) := fun _ h => h

theorem readBlock_sticky (id : Nat) (buf : Data) : Sticky (readBlock id buf) := fun _ h => h

theorem writeBlock_sticky (id : Nat) (buf : Data) : Sticky (writeBlock id buf) := by
  intro s h
  show (if id < BLOCK_NUM then s.setBlock id buf else s).exhausted = true
  split <;> exact h

theorem allocBlock_sticky : Sticky allocBlock := by
  intro s h
  rcases allocBlock_run s with ⟨id, -, -, -, -, hrun⟩ | ⟨-, hrun⟩
  · rw [hrun]
    exact h
  · rw [hrun]
    rfl

end Lost

section OnlyReads

variable {α β : Type}

-- A call that only reads.
def OnlyReads (x : Im α) : Prop := ∀ s a s', x s = .ok a s' → s' = s

theorem OnlyReads.bind {x : Im α} {f : α → Im β} (hx : OnlyReads x) (hf : ∀ a, OnlyReads (f a)) : OnlyReads (x >>= f) := by
  intro s b s' hrun
  cases h : x s with
  | ok a s₁ =>
      rw [bind_ok h] at hrun
      obtain rfl := hx s a s₁ h
      exact hf a s₁ b s' hrun
  | error e s₁ =>
      rw [bind_error h] at hrun
      cases hrun

theorem OnlyReads.pure (a : α) : OnlyReads (pure a) := by
  rintro s b s' hrun
  cases hrun
  rfl

theorem OnlyReads.throw (e : Fault) : OnlyReads (throw e : Im α) := by
  rintro s b s' hrun
  cases hrun

theorem readBlock_onlyReads (id : Nat) (buf : Data) : OnlyReads (readBlock id buf) := by
  rintro s b s' hrun
  cases hrun
  rfl

theorem getInode_onlyReads (inum : Nat) : OnlyReads (getInode inum) := by
  unfold getInode
  split
  · exact .pure _
  · exact (readBlock_onlyReads _ _).bind fun _ => .pure _

theorem getNthBlockid_onlyReads (junk : Stack) (ino : Inode) (k : Nat) : OnlyReads (getNthBlockid junk ino k) := by
  unfold getNthBlockid
  split
  · exact .pure _
  · split
    · split
      · exact .throw _
      · exact (readBlock_onlyReads _ _).bind fun _ => .pure _
    · exact .throw _

theorem readFrom_onlyReads (junk : Stack) (buf : Data) (ino : Inode) (i count : Nat) :
    OnlyReads (readFrom junk buf ino i count) := by
  induction count generalizing i buf with
  | zero => exact .pure _
  | succ count ih =>
      exact (getNthBlockid_onlyReads junk ino i).bind fun id => (readBlock_onlyReads id buf).bind fun buf =>
        (ih buf (i + 1)).bind fun _ => .pure _

theorem readFile_onlyReads (junk : Stack) (inum : Nat) : OnlyReads (readFile junk inum) := by
  refine (getInode_onlyReads inum).bind fun found => ?_
  cases found with
  | none => exact .pure _
  | some ino =>
      dsimp only
      split
      · exact .throw _
      · refine (readFrom_onlyReads junk junk.file ino 0 _).bind fun _ => ?_
        split
        · exact (getNthBlockid_onlyReads junk ino _).bind fun id => (readBlock_onlyReads id _).bind fun _ => .pure _
        · exact .pure _

theorem getattr_onlyReads (inum : Nat) (a : Attr) : OnlyReads (getattr inum a) := by
  refine (getInode_onlyReads inum).bind fun found => ?_
  cases found with
  | none => exact .pure _
  | some ino => exact .pure _

end OnlyReads

section Inodes

variable {s : Fs}

theorem byte_toBlock (ino : Inode) (b : Data) {p : Nat} (hp : p < BLOCK_SIZE) :
    (ino.toBlock b).byte p =
      if p < 2 then digit ino.type.toNat p
      else if 4 ≤ p ∧ p < 4 * (NDIRECT + 6) then digit (ino.wordAt (p / 4)).toNat (p % 4)
      else b.byte p := by
  simp only [Block.byte_of_lt _ hp, Inode.toBlock]

theorem word_toBlock (ino : Inode) (b : Data) {k : Nat} (hlo : 1 ≤ k) (hhi : k < NDIRECT + 6) :
    (ino.toBlock b).word k = ino.wordAt k := by
  obtain ⟨hblock, hdirect, -⟩ := file_sizes
  refine Block.word_of_digits fun j hj => ?_
  rw [byte_toBlock ino b (by omega), if_neg (by omega), if_pos (by omega)]
  congr 2
  · congr 1
    omega
  · omega

-- What put_inode stores is what get_inode reads.
theorem ofBlock_toBlock (ino : Inode) (b : Data) : Inode.ofBlock (ino.toBlock b) = ino := by
  have hhalf : (ino.toBlock b).half = ino.type := by
    refine Block.half_of_digits fun j hj => ?_
    rw [byte_toBlock ino b (hj.trans (by decide)), if_pos hj]
  have hword : ∀ k, 1 ≤ k → k < NDIRECT + 6 → (ino.toBlock b).word k = ino.wordAt k :=
    fun k => word_toBlock ino b
  ext k
  · simp only [Inode.ofBlock, hhalf]
  · simp only [Inode.ofBlock, hword 1 (by decide) (by decide), Inode.wordAt]
  · simp only [Inode.ofBlock, hword 2 (by decide) (by decide), Inode.wordAt]
  · simp only [Inode.ofBlock, hword 3 (by decide) (by decide), Inode.wordAt]
  · simp only [Inode.ofBlock, hword 4 (by decide) (by decide), Inode.wordAt]
  · simp only [Inode.ofBlock, hword (k.val + 5) (by omega) (by omega)]
    simp [Inode.wordAt]

-- The inode as it stands on the disk.
def Fs.inode (s : Fs) (inum : Nat) : Inode := Inode.ofBlock (s.blocks (IBLOCK inum BLOCK_NUM))

def Fs.setInode (s : Fs) (inum : Nat) (ino : Inode) : Fs :=
  s.setBlock (IBLOCK inum BLOCK_NUM) (ino.toBlock (s.blocks (IBLOCK inum BLOCK_NUM)))

theorem getInode_run {inum : Nat} (h : inum < INODE_NUM) :
    getInode inum s = .ok (some (s.inode inum)) s := by
  rw [getInode, if_neg (by omega), bind_ok (readBlock_run (iblock_lt h))]
  rfl

theorem putInode_run {inum : Nat} {ino : Inode} (h : inum < INODE_NUM) :
    putInode inum ino s = .ok () (s.setInode inum ino) := by
  rw [putInode, bind_ok (readBlock_run (iblock_lt h)), writeBlock_run (iblock_lt h)]
  rfl

theorem putInode_sticky (inum : Nat) (ino : Inode) : Sticky (putInode inum ino) :=
  (readBlock_sticky _ _).bind fun _ => writeBlock_sticky _ _

theorem inode_congr {s s' : Fs} {inum : Nat}
    (h : s'.blocks (IBLOCK inum BLOCK_NUM) = s.blocks (IBLOCK inum BLOCK_NUM)) : s'.inode inum = s.inode inum := by
  rw [Fs.inode, Fs.inode, h]

theorem inode_setInode_self (inum : Nat) (ino : Inode) : (s.setInode inum ino).inode inum = ino := by
  rw [Fs.inode, Fs.setInode, Fs.setBlock]
  simp only [Function.update_self, ofBlock_toBlock]

theorem setInode_blocks_of_ne {inum b : Nat} {ino : Inode} (h : b ≠ IBLOCK inum BLOCK_NUM) :
    (s.setInode inum ino).blocks b = s.blocks b :=
  Function.update_of_ne h ..

theorem inode_setInode_of_ne {inum j : Nat} {ino : Inode} (h : j ≠ inum) :
    (s.setInode inum ino).inode j = s.inode j :=
  inode_congr (setInode_blocks_of_ne (mt iblock_inj.mp h))

theorem getInode_none {inum : Nat} (h : INODE_NUM ≤ inum) : getInode inum s = .ok none s := by
  rw [getInode, if_pos h]
  rfl

theorem readFile_ne_none {s' : Fs} {junk : Stack} {inum : Nat} (h : inum < INODE_NUM) :
    readFile junk inum s ≠ .ok none s' := by
  intro hrun
  rw [readFile, bind_ok (getInode_run h)] at hrun
  dsimp only at hrun
  split at hrun
  · cases hrun
  · cases hloop : readFrom junk junk.file (s.inode inum) 0 ((s.inode inum).size.toNat / BLOCK_SIZE) s with
    | error e s₁ =>
        rw [bind_error hloop] at hrun
        cases hrun
    | ok out s₁ =>
        rw [bind_ok hloop] at hrun
        split at hrun
        · cases hget : getNthBlockid junk (s.inode inum) ((s.inode inum).size.toNat / BLOCK_SIZE) s₁ with
          | error e s₂ =>
              rw [bind_error hget] at hrun
              cases hrun
          | ok id s₂ =>
              rw [bind_ok hget] at hrun
              cases hrun
        · cases hrun

-- What alloc_inode stores: the block ids stay as they are.
def Inode.fresh (ino : Inode) (type : UInt16) : Inode :=
  { ino with type := type, size := 0, atime := 0, mtime := 0, ctime := 0 }

-- The first inode whose type is 0 is taken.
theorem allocInodeFrom_run {type : UInt16} {i count k : Nat} (hi : i ≤ k) (hk : k < i + count)
    (hlt : k < INODE_NUM) (hbefore : ∀ j, i ≤ j → j < k → (s.inode j).type ≠ 0) (hfree : (s.inode k).type = 0) :
    allocInodeFrom type i count s = .ok k (s.setInode k ((s.inode k).fresh type)) := by
  induction count generalizing i with
  | zero => omega
  | succ count ih =>
      rw [allocInodeFrom, bind_ok (getInode_run (show i < INODE_NUM by omega))]
      dsimp only
      rcases Nat.eq_or_lt_of_le hi with rfl | hnext
      · rw [if_pos hfree, bind_ok (putInode_run hlt)]
        rfl
      · rw [if_neg (hbefore i le_rfl hnext)]
        exact ih hnext (by omega) fun j hj => hbefore j (by omega)

-- With no such inode the loop runs into get_inode's NULL.
theorem allocInodeFrom_full {type : UInt16} {i count : Nat} (hi : i ≤ INODE_NUM) (hcount : INODE_NUM < i + count)
    (hfull : ∀ j, i ≤ j → j < INODE_NUM → (s.inode j).type ≠ 0) :
    allocInodeFrom type i count s = .error .nullDereference s := by
  induction count generalizing i with
  | zero => omega
  | succ count ih =>
      rw [allocInodeFrom]
      rcases Nat.eq_or_lt_of_le hi with rfl | hlt
      · rw [bind_ok (getInode_none le_rfl)]
        rfl
      · rw [bind_ok (getInode_run hlt)]
        dsimp only
        rw [if_neg (hfull i le_rfl hlt)]
        exact ih hlt (by omega) fun j hj => hfull j (by omega)

theorem allocInode_cases (type : UInt32) (s : Fs) :
    (∃ k, 1 ≤ k ∧ k < INODE_NUM ∧ (∀ j, 1 ≤ j → j < k → (s.inode j).type ≠ 0) ∧ (s.inode k).type = 0 ∧
      allocInode type s = .ok k (s.setInode k ((s.inode k).fresh type.toUInt16))) ∨
    (∀ j, 1 ≤ j → j < INODE_NUM → (s.inode j).type ≠ 0) ∧ allocInode type s = .error .nullDereference s := by
  by_cases hfree : ∃ k, 1 ≤ k ∧ k < INODE_NUM ∧ (s.inode k).type = 0
  · classical
    obtain ⟨hlo, hhi, htype⟩ := Nat.find_spec hfree
    have hbefore : ∀ j, 1 ≤ j → j < Nat.find hfree → (s.inode j).type ≠ 0 :=
      fun j hj hlt hzero => Nat.find_min hfree hlt ⟨hj, by omega, hzero⟩
    exact .inl ⟨_, hlo, hhi, hbefore, htype, allocInodeFrom_run hlo (by omega) hhi hbefore htype⟩
  · have hfull : ∀ j, 1 ≤ j → j < INODE_NUM → (s.inode j).type ≠ 0 :=
      fun j hlo hhi hzero => hfree ⟨j, hlo, hhi, hzero⟩
    exact .inr ⟨hfull, allocInodeFrom_full (by decide) (by omega) hfull⟩

end Inodes

end CseLabs.InodeManager
