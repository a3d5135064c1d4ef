import CseLabs.InodeManager.Supply

namespace CseLabs.InodeManager

section Sound

-- A state of the store: the files in use own their blocks, an inode not in use is empty, and
-- what blocks[NDIRECT] names, for a file past its direct blocks or since it was, is a block of
-- the file area.
structure Sound (s : Fs) : Prop where
  owned : ∀ inum, s.Live inum → Owns s (s.inode inum) (s.nblocks inum) False (s.others False inum)
  limit : ∀ inum, s.Live inum → (s.inode inum).size.toNat < MAXFILE * BLOCK_SIZE
  unused : ∀ inum < INODE_NUM, (s.inode inum).type = 0 → (s.inode inum).size = 0
  indirect : ∀ inum < INODE_NUM, (s.inode inum).indirect ≠ 0 →
    FILEBLOCK ≤ (s.inode inum).indirect.toNat ∧ (s.inode inum).indirect.toNat < BLOCK_NUM

variable {s : Fs} {inum : Nat}

theorem Sound.size (h : Sound s) (hinum : inum < INODE_NUM) : (s.inode inum).size.toNat < MAXFILE * BLOCK_SIZE := by
  by_cases htype : (s.inode inum).type = 0
  · rw [h.unused inum hinum htype]
    decide
  · exact h.limit inum ⟨hinum, htype⟩

theorem Sound.nblocks_le (h : Sound s) (hinum : inum < INODE_NUM) : s.nblocks inum ≤ MAXFILE :=
  blocksNum_le (h.size hinum).le

theorem Sound.owns (h : Sound s) (hinum : inum < INODE_NUM) :
    Owns s (s.inode inum) (s.nblocks inum) False (s.others False inum) := by
  by_cases htype : (s.inode inum).type = 0
  · have hempty : ∀ slot, ¬ Uses (s.inode inum) (s.nblocks inum) False slot :=
      not_uses_of_empty (h.unused inum hinum htype) False.elim
    exact ⟨fun slot hu => absurd hu (hempty slot), fun a b ha => absurd ha (hempty a)⟩
  · exact h.owned inum ⟨hinum, htype⟩

theorem Sound.readFile (h : Sound s) (hinum : inum < INODE_NUM) (junk : Stack) :
    readFile junk inum s = .ok (some (s.content (s.inode inum))) s :=
  readFile_run junk hinum rfl (h.size hinum).le (h.owns hinum)

end Sound

section After

-- The state s' that write_file ends in, when s₁ and ino₁ are what resizing the file has left.
structure After (s₁ s' : Fs) (ino₁ : Inode) (inum : Nat) (junk : Stack) (buf : Bytes) : Prop where
  size : (s'.inode inum).size.toNat = buf.length
  indirect : (s'.inode inum).indirect = ino₁.indirect
  blockid : ∀ k < blocksNum buf.length, s'.blockid (s'.inode inum) k = s₁.blockid ino₁ k
  last : ∀ k < blocksNum buf.length, s₁.blockid ino₁ k ≠ IBLOCK inum BLOCK_NUM → s₁.blockid ino₁ k < BLOCK_NUM →
    (∀ j, k < j → j < blocksNum buf.length → s₁.blockid ino₁ j ≠ s₁.blockid ino₁ k) →
    s'.blocks (s₁.blockid ino₁ k) = fileBlock junk buf k
  outside : ∀ b, b ≠ IBLOCK inum BLOCK_NUM → (∀ k < blocksNum buf.length, s₁.blockid ino₁ k ≠ b) →
    s'.blocks b = s₁.blocks b

variable {s s' s₁ : Fs} {ino₁ : Inode} {inum : Nat} {junk : Stack} {now : Times} {buf : Bytes}

theorem writeFile_resize (hinum : inum < INODE_NUM) (hbuf : buf.length < MAXFILE * BLOCK_SIZE)
    (hresize : resize junk (s.inode inum) (s.nblocks inum) (blocksNum buf.length) s = .ok ino₁ s₁) :
    writeFile junk now inum buf s = (writeData junk ino₁ buf >>= fun _ => putInode inum { ino₁ with
      size := UInt32.ofNat buf.length, atime := now.atime, mtime := now.mtime, ctime := now.ctime }) s₁ := by
  rw [writeFile]
  simp only [if_neg (not_le.mpr hbuf)]
  rw [bind_ok (getInode_run hinum)]
  dsimp only
  rw [Fs.nblocks] at hresize
  rw [bind_ok hresize]

theorem Overwritten.after {s₂ : Fs} {ino' : Inode} (hinum : inum < INODE_NUM)
    (htable : TableApart s₁ ino₁ (blocksNum buf.length))
    (hlow : NDIRECT < blocksNum buf.length → FILEBLOCK ≤ ino₁.indirect.toNat)
    (hover : Overwritten s₁ s₂ ino₁ 0 (blocksNum buf.length) (fileBlock junk buf))
    (hblocks : ino'.blocks = ino₁.blocks) (hsize : ino'.size.toNat = buf.length) :
    After s₁ (s₂.setInode inum ino') ino₁ inum junk buf := by
  have hinode : (s₂.setInode inum ino').inode inum = ino' := inode_setInode_self inum ino'
  refine ⟨by rw [hinode, hsize], by rw [hinode]; exact congrFun hblocks _, fun k hk => ?_, ?_, ?_⟩
  · rw [hinode, blockid_congr hblocks fun hle => setInode_blocks_of_le hinum (hlow (by omega))]
    exact hover.blockid htable le_rfl hk
  · intro k hk hne hhigh hlast
    rw [setInode_blocks_of_ne hne]
    exact hover.last k (Nat.zero_le k) hk hhigh hlast
  · intro b hne hb
    rw [setInode_blocks_of_ne hne]
    exact hover.outside b fun k _ => hb k

theorem writeFile_after (now : Times) (hinum : inum < INODE_NUM) (hbuf : buf.length < MAXFILE * BLOCK_SIZE)
    (hresize : resize junk (s.inode inum) (s.nblocks inum) (blocksNum buf.length) s = .ok ino₁ s₁)
    (htable : TableApart s₁ ino₁ (blocksNum buf.length))
    (hlow : NDIRECT < blocksNum buf.length → FILEBLOCK ≤ ino₁.indirect.toNat) :
    ∃ s', writeFile junk now inum buf s = .ok () s' ∧ After s₁ s' ino₁ inum junk buf := by
  obtain ⟨s₂, hdata, hover⟩ := htable.writeData junk buf hbuf.le
  rw [writeFile_resize hinum hbuf hresize, bind_ok hdata, putInode_run hinum]
  exact ⟨_, rfl, hover.after hinum htable hlow rfl (toNat_ofNat_size hbuf.le)⟩

theorem After.readFile (h : After s₁ s' ino₁ inum junk buf) (hinum : inum < INODE_NUM)
    (hbuf : buf.length < MAXFILE * BLOCK_SIZE) (htable : TableApart s₁ ino₁ (blocksNum buf.length)) (stack : Stack) :
    InodeManager.readFile stack inum s' = .ok (some (s'.readOut (s'.inode inum) stack)) s' := by
  refine readFile_out stack hinum rfl (by rw [h.size]; exact hbuf.le) fun hlt => ?_
  rw [h.size] at hlt
  rw [h.indirect]
  exact (htable hlt).1

theorem getElem?_readOut {ino : Inode} {stack : Stack} {q : Nat} (hq : q < ino.size.toNat) :
    (s.readOut ino stack)[q]? = some ((s.readBuf ino stack (q / BLOCK_SIZE + 1)).byte (q % BLOCK_SIZE)) := by
  rw [Fs.readOut, List.getElem?_map, List.getElem?_range hq, Option.map_some]

end After

section Placing

-- A file of at most NDIRECT blocks that is about to get more, and finds a block in blocks[NDIRECT]
-- from a time when it, or the file before it, had more.
def Fs.Stale (s : Fs) (inum n' : Nat) : Prop :=
  s.nblocks inum ≤ NDIRECT ∧ NDIRECT < n' ∧ (s.inode inum).indirect ≠ 0

-- The calls of alloc_block it takes to make a file one of n' blocks.
def Fs.demand (s : Fs) (inum n' : Nat) : Nat :=
  n' - s.nblocks inum +
    if s.nblocks inum ≤ NDIRECT ∧ NDIRECT < n' ∧ (s.inode inum).indirect = 0 then 1 else 0

variable {s s₁ : Fs} {inum n' : Nat} {ino₁ : Inode} {junk : Stack}

theorem Sound.indirect_ne_zero (h : Sound s) (hinum : inum < INODE_NUM) (hn : NDIRECT < s.nblocks inum) :
    (s.inode inum).indirect ≠ 0 :=
  (h.owns hinum).indirect_ne_zero hn

-- Which call of alloc_block gives block k its id.
def Fs.turn (s : Fs) (inum k : Nat) : Nat :=
  if NDIRECT ≤ k ∧ (s.inode inum).indirect = 0 then k + 1 - s.nblocks inum else k - s.nblocks inum

theorem given_eq (s : Fs) (inum k : Nat) :
    s.given (s.inode inum) (s.nblocks inum) k = s.supply (s.turn inum k) := rfl

theorem Sound.turn_lt {k : Nat} (h : Sound s) (hinum : inum < INODE_NUM) (hn : s.nblocks inum ≤ k) (hk : k < n') :
    s.turn inum k < s.demand inum n' := by
  have hold := fun hlt => h.indirect_ne_zero hinum hlt
  rw [Fs.turn, Fs.demand]
  by_cases hind : (s.inode inum).indirect = 0
  · have hle : s.nblocks inum ≤ NDIRECT := not_lt.mp fun hlt => hold hlt hind
    simp only [hind, and_true]
    split <;> split <;> omega
  · simp only [hind, and_false, if_false]
    omega

theorem Sound.turn_last (h : Sound s) (hinum : inum < INODE_NUM) (hn : s.nblocks inum < n') :
    s.turn inum (n' - 1) + 1 = s.demand inum n' := by
  have hold := fun hlt => h.indirect_ne_zero hinum hlt
  rw [Fs.turn, Fs.demand]
  by_cases hind : (s.inode inum).indirect = 0
  · have hle : s.nblocks inum ≤ NDIRECT := not_lt.mp fun hlt => hold hlt hind
    simp only [hind, and_true]
    split <;> split <;> omega
  · simp only [hind, and_false, if_false]
    omega

theorem turn_inj {j k : Nat} (hj : s.nblocks inum ≤ j) (hk : s.nblocks inum ≤ k)
    (h : s.turn inum j = s.turn inum k) : j = k := by
  rw [Fs.turn, Fs.turn] at h
  by_cases hind : (s.inode inum).indirect = 0
  · simp only [hind, and_true] at h
    split at h <;> split at h <;> omega
  · simp only [hind, and_false, if_false] at h
    omega

-- A block id of a file is one it had, or the number of a free block, or 0.
theorem supply_cases (s : Fs) (k : Nat) : s.supply k ∈ s.freeBlocks ∨ s.supply k = 0 := by
  by_cases h : k < s.freeBlocks.length
  · exact .inl (supply_mem h)
  · exact .inr (supply_eq_zero (not_lt.mp h))

theorem Owns.not_mem_freeBlocks {ino : Inode} {n : Nat} {keep : Prop} {others : Nat → Prop} {slot : Slot}
    (h : Owns s ino n keep others) (hu : Uses ino n keep slot) : s.at ino slot ∉ s.freeBlocks := by
  intro hmem
  have hmarked := (h.mine slot hu).marked
  rw [(mem_freeBlocks.mp hmem).2.2] at hmarked
  cases hmarked

theorem Sound.table_low (h : Sound s) (hinum : inum < INODE_NUM)
    (hext : Extended s s₁ (s.inode inum) ino₁ (s.nblocks inum) n') (hn' : NDIRECT < n') :
    FILEBLOCK ≤ ino₁.indirect.toNat ∧ ino₁.indirect.toNat < BLOCK_NUM := by
  obtain ⟨hne, htable⟩ := hext.table hn'
  by_cases hind : (s.inode inum).indirect = 0
  · rw [if_pos hind] at htable
    rcases supply_cases s (NDIRECT - s.nblocks inum) with hmem | hzero
    · rw [htable]
      exact ⟨(mem_freeBlocks.mp hmem).1, (mem_freeBlocks.mp hmem).2.1⟩
    · rw [hzero] at htable
      exact absurd (UInt32.toNat_inj.mp htable) hne
  · rw [if_neg hind] at htable
    rw [htable]
    exact h.indirect inum hinum hind

-- Unless blocks[NDIRECT] was stale, the table is apart from the blocks.
theorem Sound.tableApart (h : Sound s) (hinum : inum < INODE_NUM)
    (hext : Extended s s₁ (s.inode inum) ino₁ (s.nblocks inum) n')
    (hstale : s.Stale inum n' → ∀ k < n', s₁.blockid ino₁ k ≠ (s.inode inum).indirect.toNat) :
    TableApart s₁ ino₁ n' := by
  intro hn'
  obtain ⟨hlow, hhigh⟩ := h.table_low hinum hext hn'
  obtain ⟨hne, htable⟩ := hext.table hn'
  have howns := h.owns hinum
  refine ⟨⟨hne, hhigh⟩, fun k hk heq => ?_⟩
  have hdata := hext.data k hk
  rw [heq] at hdata
  by_cases hind : (s.inode inum).indirect = 0
  · -- a new table
    rw [if_pos hind] at htable
    have hmem : s.supply (NDIRECT - s.nblocks inum) ∈ s.freeBlocks :=
      (supply_cases s _).resolve_right fun hzero => absurd hlow (by rw [htable, hzero]; decide)
    by_cases hkn : k < s.nblocks inum
    · rw [if_pos hkn, htable] at hdata
      have hslot : Uses (s.inode inum) (s.nblocks inum) False (.data k) := hkn
      exact howns.not_mem_freeBlocks hslot (by rw [hdata] at hmem; exact hmem)
    · rw [if_neg hkn, given_eq, htable] at hdata
      have hturn := supply_inj (fun hzero => absurd hlow (by rw [htable, hzero]; decide)) hdata
      have hle : s.nblocks inum ≤ NDIRECT := not_lt.mp fun hlt => h.indirect_ne_zero hinum hlt hind
      simp only [Fs.turn, hind, and_true] at hturn
      split at hturn <;> omega
  · rw [if_neg hind] at htable
    by_cases hle : s.nblocks inum ≤ NDIRECT
    · exact hstale ⟨hle, hn', hind⟩ k hk (heq.trans htable)
    · have huses : Uses (s.inode inum) (s.nblocks inum) False .indirect := .indirect_of_lt (not_le.mp hle)
      by_cases hkn : k < s.nblocks inum
      · rw [if_pos hkn] at hdata
        exact (howns.tableApart (not_le.mp hle)).2 k hkn (hdata.symm.trans htable)
      · rw [if_neg hkn, given_eq] at hdata
        rcases supply_cases s (s.turn inum k) with hmem | hzero
        · refine howns.not_mem_freeBlocks huses ?_
          rw [← hdata, htable] at hmem
          exact hmem
        · rw [hdata, hzero] at hlow
          exact absurd hlow (by decide)

-- A file has got its n' blocks: they are blocks of the file area, all different, and none of them
-- another file's. Only the block of the table has changed.
structure Placed (s s₁ : Fs) (ino₁ : Inode) (inum n' : Nat) : Prop where
  low : ∀ k < n', FILEBLOCK ≤ s₁.blockid ino₁ k
  high : ∀ k < n', s₁.blockid ino₁ k < BLOCK_NUM
  inj : ∀ j < n', ∀ k < n', s₁.blockid ino₁ j = s₁.blockid ino₁ k → j = k
  apart : ∀ k < n', ¬ s.others False inum (s₁.blockid ino₁ k)
  table : TableApart s₁ ino₁ n'
  tableLow : NDIRECT < n' → FILEBLOCK ≤ ino₁.indirect.toNat
  blocks : ∀ b, (NDIRECT < n' → b ≠ ino₁.indirect.toNat) → s₁.blocks b = s.blocks b

theorem Sound.not_others_of_mem {b : Nat} (h : Sound s) (hmem : b ∈ s.freeBlocks) : ¬ s.others False inum b := by
  rintro ⟨j, slot, -, ⟨⟨hj, -⟩, hu⟩, rfl⟩
  exact (h.owns hj).not_mem_freeBlocks hu hmem

theorem Sound.placed_of_extended (h : Sound s) (hinum : inum < INODE_NUM)
    (hext : Extended s s₁ (s.inode inum) ino₁ (s.nblocks inum) n')
    (hdemand : s.demand inum n' ≤ s.freeBlocks.length) (htable : TableApart s₁ ino₁ n') :
    Placed s s₁ ino₁ inum n' := by
  have howns := h.owns hinum
  have hold : ∀ k < n', k < s.nblocks inum → s₁.blockid ino₁ k = s.blockid (s.inode inum) k :=
    fun k hk hkn => (hext.data k hk).trans (if_pos hkn)
  have hnew : ∀ k < n', ¬ k < s.nblocks inum → s₁.blockid ino₁ k = s.supply (s.turn inum k) :=
    fun k hk hkn => (hext.data k hk).trans (if_neg hkn)
  have hmem : ∀ k < n', ¬ k < s.nblocks inum → s.supply (s.turn inum k) ∈ s.freeBlocks :=
    fun k hk hkn => supply_mem ((h.turn_lt hinum (not_lt.mp hkn) hk).trans_le hdemand)
  have hne : ∀ j < s.nblocks inum, ∀ k < n', ¬ k < s.nblocks inum →
      s.blockid (s.inode inum) j ≠ s.supply (s.turn inum k) := by
    intro j hj k hk hkn heq
    have hslot : Uses (s.inode inum) (s.nblocks inum) False (.data j) := hj
    refine howns.not_mem_freeBlocks hslot ?_
    rw [Fs.at, heq]
    exact hmem k hk hkn
  refine ⟨fun k hk => ?_, fun k hk => ?_, fun j hj k hk heq => ?_, fun k hk => ?_, htable,
    fun hn' => (h.table_low hinum hext hn').1, hext.blocks⟩
  · by_cases hkn : k < s.nblocks inum
    · rw [hold k hk hkn]
      exact howns.le_blockid hkn
    · rw [hnew k hk hkn]
      exact (mem_freeBlocks.mp (hmem k hk hkn)).1
  · by_cases hkn : k < s.nblocks inum
    · rw [hold k hk hkn]
      exact howns.blockid_lt hkn
    · rw [hnew k hk hkn]
      exact supply_lt s _
  · by_cases hjn : j < s.nblocks inum <;> by_cases hkn : k < s.nblocks inum
    · rw [hold j hj hjn, hold k hk hkn] at heq
      exact howns.blockid_inj hjn hkn heq
    · rw [hold j hj hjn, hnew k hk hkn] at heq
      exact absurd heq (hne j hjn k hk hkn)
    · rw [hnew j hj hjn, hold k hk hkn] at heq
      exact absurd heq.symm (hne k hkn j hj hjn)
    · rw [hnew j hj hjn, hnew k hk hkn] at heq
      have hlow := (mem_freeBlocks.mp (hmem j hj hjn)).1
      have hturn := supply_inj (fun hzero => absurd hlow (by rw [hzero]; decide)) heq
      exact turn_inj (not_lt.mp hjn) (not_lt.mp hkn) hturn
  · by_cases hkn : k < s.nblocks inum
    · rw [hold k hk hkn]
      exact (howns.mine (.data k) hkn).apart
    · rw [hnew k hk hkn]
      exact h.not_others_of_mem (hmem k hk hkn)

-- What the table of the file is.
structure Tabled (s s₁ : Fs) (ino₁ : Inode) (inum n' : Nat) : Prop where
  stale : s.Stale inum n' → ino₁.indirect = (s.inode inum).indirect ∧
    s₁.blocks (s.inode inum).indirect.toNat = s.tableWith (s.inode inum) (s.nblocks inum) n'
  apart : NDIRECT < n' → ¬ s.Stale inum n' → ¬ s.others False inum ino₁.indirect.toNat

theorem Sound.tabled_of_extended (h : Sound s) (hinum : inum < INODE_NUM)
    (hext : Extended s s₁ (s.inode inum) ino₁ (s.nblocks inum) n') : Tabled s s₁ ino₁ inum n' := by
  constructor
  · rintro ⟨-, hn', hind⟩
    have htable := (hext.table hn').2
    rw [if_neg hind] at htable
    exact ⟨UInt32.toNat_inj.mp htable, hext.entries hind⟩
  · intro hn' hstale
    obtain ⟨hlow, -⟩ := h.table_low hinum hext hn'
    have htable := (hext.table hn').2
    by_cases hind : (s.inode inum).indirect = 0
    · rw [if_pos hind] at htable
      rw [htable] at hlow ⊢
      refine h.not_others_of_mem ((supply_cases s _).resolve_right fun hzero => ?_)
      exact absurd hlow (by rw [hzero]; decide)
    · rw [if_neg hind] at htable
      have hlt : NDIRECT < s.nblocks inum := not_le.mp fun hle => hstale ⟨hle, hn', hind⟩
      rw [htable]
      exact ((h.owns hinum).mine .indirect (.indirect_of_lt hlt)).apart

theorem Sound.placed_of_freed (h : Sound s) (hinum : inum < INODE_NUM) (hn : n' ≤ s.nblocks inum)
    (hblocks : s₁.blocks = s.blocks) :
    Placed s s₁ (s.inode inum) inum n' ∧ Tabled s s₁ (s.inode inum) inum n' := by
  have howns := h.owns hinum
  have hid : ∀ k, s₁.blockid (s.inode inum) k = s.blockid (s.inode inum) k :=
    fun k => blockid_congr rfl fun _ => by rw [hblocks]
  have htable := howns.tableApart
  refine ⟨⟨fun k hk => ?_, fun k hk => ?_, fun j hj k hk heq => ?_, fun k hk => ?_, fun hlt => ?_, fun hlt => ?_,
    fun b _ => by rw [hblocks]⟩, ⟨?_, fun hlt _ => ?_⟩⟩
  · rw [hid]
    exact howns.le_blockid (hk.trans_le hn)
  · rw [hid]
    exact howns.blockid_lt (hk.trans_le hn)
  · rw [hid, hid] at heq
    exact howns.blockid_inj (hj.trans_le hn) (hk.trans_le hn) heq
  · rw [hid]
    exact (howns.mine (.data k) (hk.trans_le hn)).apart
  · refine ⟨(htable (hlt.trans_le hn)).1, fun k hk => ?_⟩
    rw [hid]
    exact (htable (hlt.trans_le hn)).2 k (hk.trans_le hn)
  · exact (howns.mine .indirect (.indirect_of_lt (hlt.trans_le hn))).low
  · rintro ⟨hle, hn', -⟩
    omega
  · exact (howns.mine .indirect (.indirect_of_lt (hlt.trans_le hn))).apart

theorem Sound.resize_extended (h : Sound s) (hinum : inum < INODE_NUM) (hn : s.nblocks inum < n') (hmax : n' ≤ MAXFILE)
    (junk : Stack) :
    ∃ ino₁ s₁, resize junk (s.inode inum) (s.nblocks inum) n' s = .ok ino₁ s₁ ∧
      (Extended s s₁ (s.inode inum) ino₁ (s.nblocks inum) n' ∨
        NDIRECT < n' ∧ ino₁.indirect = 0 ∧ (s.inode inum).indirect = 0 ∧ s.nblocks inum ≤ NDIRECT ∧
          s.freeBlocks.length ≤ NDIRECT - s.nblocks inum) := by
  simp only [InodeManager.resize, hn, if_true]
  exact allocFrom_extended junk s hn.le hmax (fun hind => (h.indirect inum hinum hind).2) (h.indirect_ne_zero hinum)

theorem Sound.resize_freed (h : Sound s) (hinum : inum < INODE_NUM) (hn : n' ≤ s.nblocks inum) (junk : Stack) :
    ∃ s₁, resize junk (s.inode inum) (s.nblocks inum) n' s = .ok (s.inode inum) s₁ ∧ s₁.blocks = s.blocks := by
  have hmax := h.nblocks_le hinum
  obtain ⟨s₁, hfree, hfreed⟩ := freeFrom_run (s := s) junk (s.inode inum)
    (show n' + (s.nblocks inum - n') ≤ MAXFILE by omega) fun hlt => ((h.owns hinum).tableApart (by omega)).1
  simp only [InodeManager.resize, not_lt.mpr hn, if_false]
  rw [bind_ok hfree]
  exact ⟨s₁, rfl, hfreed.blocks⟩

theorem supply_mem_take {i m : Nat} (hi : i < m) (hne : s.supply i ≠ 0) : s.supply i ∈ s.freeBlocks.take m := by
  have hlen : i < s.freeBlocks.length := not_le.mp fun hle => hne (supply_eq_zero hle)
  rw [Fs.supply, List.getD_eq_getElem _ _ hlen, List.mem_take_iff_getElem]
  exact ⟨i, by omega, rfl⟩

-- The block of the stale pointer is not among those the file has or gets.
theorem Sound.stale_apart (h : Sound s) (hinum : inum < INODE_NUM)
    (hext : Extended s s₁ (s.inode inum) ino₁ (s.nblocks inum) n') (hstale : s.Stale inum n') :
    (∀ k < n', s₁.blockid ino₁ k ≠ (s.inode inum).indirect.toNat) ↔
      (∀ k < s.nblocks inum, s.blockid (s.inode inum) k ≠ (s.inode inum).indirect.toNat) ∧
        (s.inode inum).indirect.toNat ∉ s.freeBlocks.take (n' - s.nblocks inum) := by
  obtain ⟨hle, hn', hind⟩ := hstale
  have hlow := (h.indirect inum hinum hind).1
  have hturn : ∀ k, s.turn inum k = k - s.nblocks inum := fun k => if_neg fun hnew => hind hnew.2
  constructor
  · intro hall
    refine ⟨fun k hk heq => ?_, fun hmem => ?_⟩
    · refine hall k (by omega) ?_
      rw [hext.data k (by omega), if_pos hk, heq]
    · obtain ⟨i, hi, heq⟩ := List.mem_take_iff_getElem.mp hmem
      refine hall (s.nblocks inum + i) (by omega) ?_
      rw [hext.data _ (by omega), if_neg (by omega), given_eq, hturn, Nat.add_sub_cancel_left, Fs.supply,
        List.getD_eq_getElem _ _ (by omega), heq]
  · rintro ⟨hown, hgiven⟩ k hk heq
    rw [hext.data k hk] at heq
    by_cases hkn : k < s.nblocks inum
    · rw [if_pos hkn] at heq
      exact hown k hkn heq
    · rw [if_neg hkn, given_eq, hturn] at heq
      rw [← heq] at hgiven hlow
      refine hgiven (supply_mem_take (by omega) fun hzero => ?_)
      exact absurd hlow (by rw [hzero]; decide)

end Placing

section Whole

-- The other files read as before, and below the file area only the inode's own block may change.
structure OthersKept (s s' : Fs) (inum : Nat) : Prop where
  files : ∀ j < INODE_NUM, j ≠ inum → ∀ stack content, readFile stack j s = .ok content s →
    readFile stack j s' = .ok content s'
  blocks : ∀ b < FILEBLOCK, b ≠ IBLOCK inum BLOCK_NUM → s'.blocks b = s.blocks b

-- write_file returns, the file reads as what was written, and the rest is kept.
def Whole (junk : Stack) (now : Times) (s : Fs) (inum : Nat) (buf : Bytes) : Prop :=
  ∃ s', writeFile junk now inum buf s = .ok () s' ∧ readFile junk inum s' = .ok (some buf) s' ∧ OthersKept s s' inum

-- The block of a stale pointer can take a table: it is not among the blocks the file has or gets,
-- it is no other file's table, and the other files read the same with the table in it.
structure Fs.Spare (s : Fs) (inum n' : Nat) : Prop where
  own : ∀ k < s.nblocks inum, s.blockid (s.inode inum) k ≠ (s.inode inum).indirect.toNat
  given : (s.inode inum).indirect.toNat ∉ s.freeBlocks.take (n' - s.nblocks inum)
  tables : ∀ j < INODE_NUM, j ≠ inum → NDIRECT < s.nblocks j → (s.inode j).indirect ≠ (s.inode inum).indirect
  data : ∀ j < INODE_NUM, j ≠ inum →
    (s.setBlock (s.inode inum).indirect.toNat (s.tableWith (s.inode inum) (s.nblocks inum) n')).content (s.inode j) =
      s.content (s.inode j)

-- The store has room for a file of the given size.
structure Fs.Fits (s : Fs) (inum len : Nat) : Prop where
  size : len < MAXFILE * BLOCK_SIZE
  demand : s.demand inum (blocksNum len) ≤ s.freeBlocks.length
  spare : s.Stale inum (blocksNum len) → s.Spare inum (blocksNum len)

variable {s s' s₁ : Fs} {ino₁ : Inode} {inum j : Nat} {junk : Stack} {now : Times} {buf : Bytes}

theorem Sound.refers {slot : Slot} (h : Sound s) (hj : j < INODE_NUM)
    (hu : Uses (s.inode j) (s.nblocks j) False slot) : s.Refers False j slot := by
  refine ⟨⟨hj, .inr fun htype => ?_⟩, hu⟩
  exact not_uses_of_empty (h.unused j hj htype) False.elim slot hu

theorem Sound.others {slot : Slot} (h : Sound s) (hj : j < INODE_NUM) (hne : j ≠ inum)
    (hu : Uses (s.inode j) (s.nblocks j) False slot) : s.others False inum (s.at (s.inode j) slot) :=
  ⟨j, slot, hne, h.refers hj hu, rfl⟩

theorem Placed.low_block {b : Nat} (hp : Placed s s₁ ino₁ inum (blocksNum buf.length))
    (hafter : After s₁ s' ino₁ inum junk buf) (hb : b < FILEBLOCK) (hne : b ≠ IBLOCK inum BLOCK_NUM) :
    s'.blocks b = s.blocks b := by
  rw [hafter.outside b hne fun k hk heq => absurd (hp.low k hk) (by omega)]
  exact hp.blocks b fun hn' heq => absurd (hp.tableLow hn') (by omega)

theorem Placed.last {k : Nat} (hinum : inum < INODE_NUM) (hp : Placed s s₁ ino₁ inum (blocksNum buf.length))
    (hafter : After s₁ s' ino₁ inum junk buf) (hk : k < blocksNum buf.length) :
    s'.blocks (s₁.blockid ino₁ k) = fileBlock junk buf k := by
  have hlow := hp.low k hk
  have hiblock := iblock_lt_fileblock hinum
  refine hafter.last k hk (by omega) (hp.high k hk) fun j hkj hj heq => ?_
  have hjk := hp.inj j hj k hk heq
  omega

theorem Placed.readFile_self (hinum : inum < INODE_NUM) (hbuf : buf.length < MAXFILE * BLOCK_SIZE)
    (hp : Placed s s₁ ino₁ inum (blocksNum buf.length)) (hafter : After s₁ s' ino₁ inum junk buf) (stack : Stack) :
    readFile stack inum s' = .ok (some buf) s' := by
  rw [hafter.readFile hinum hbuf hp.table stack, readOut_eq_content]
  · congr 2
    refine List.ext_getElem (by rw [Fs.content, List.length_map, List.length_range, hafter.size]) fun q hq hq' => ?_
    have hk : q / BLOCK_SIZE < blocksNum buf.length :=
      lt_blocksNum_iff.mpr ((Nat.div_mul_le_self q BLOCK_SIZE).trans_lt hq')
    simp only [Fs.content, List.getElem_map, List.getElem_range]
    rw [hafter.blockid _ hk, hp.last hinum hafter hk, byte_fileBlock junk buf hq']
  · intro k hk
    rw [hafter.size] at hk
    rw [hafter.blockid k hk]
    exact hp.high k hk

theorem Placed.inode_other (hp : Placed s s₁ ino₁ inum (blocksNum buf.length)) (hafter : After s₁ s' ino₁ inum junk buf)
    (hj : j < INODE_NUM) (hne : j ≠ inum) : s'.inode j = s.inode j :=
  inode_congr (hp.low_block hafter (iblock_lt_fileblock hj) (mt iblock_inj.mp hne))

-- A file whose table is not where the new table is reads as it would have before the data came.
theorem Placed.readFile_other (h : Sound s) (hinum : inum < INODE_NUM)
    (hp : Placed s s₁ ino₁ inum (blocksNum buf.length)) (hafter : After s₁ s' ino₁ inum junk buf) (hj : j < INODE_NUM)
    (hne : j ≠ inum)
    (htable : NDIRECT < s.nblocks j → NDIRECT < blocksNum buf.length → (s.inode j).indirect ≠ ino₁.indirect)
    (stack : Stack) : readFile stack j s' = .ok (some (s₁.content (s.inode j))) s' := by
  have howns := h.owns hj
  have hid : ∀ k < s.nblocks j, s₁.blockid (s.inode j) k = s.blockid (s.inode j) k := by
    intro k hk
    refine blockid_congr rfl fun hle => hp.blocks _ fun hn' heq => ?_
    exact htable (by omega) hn' (UInt32.toNat_inj.mp heq)
  have hkept : ∀ slot, Uses (s.inode j) (s.nblocks j) False slot →
      s'.blocks (s₁.at (s.inode j) slot) = s₁.blocks (s₁.at (s.inode j) slot) := by
    intro slot hu
    have hat : s₁.at (s.inode j) slot = s.at (s.inode j) slot := by
      cases slot with
      | data k => exact hid k hu
      | indirect => rfl
    have hlow := (howns.mine slot hu).low
    have hiblock := iblock_lt_fileblock hinum
    rw [hat]
    refine hafter.outside _ (by omega) fun k hk heq => hp.apart k hk ?_
    rw [heq]
    exact h.others hj hne hu
  rw [readFile_out stack hj (hp.inode_other hafter hj hne) (h.size hj).le fun hlt => (howns.tableApart hlt).1,
    readOut_eq_content, content_of_blocks hkept]
  intro k hk
  rw [blockid_of_blocks hkept hk, hid k hk]
  exact howns.blockid_lt hk

theorem Placed.whole (h : Sound s) (hinum : inum < INODE_NUM) (hbuf : buf.length < MAXFILE * BLOCK_SIZE)
    (hresize : resize junk (s.inode inum) (s.nblocks inum) (blocksNum buf.length) s = .ok ino₁ s₁)
    (hp : Placed s s₁ ino₁ inum (blocksNum buf.length))
    (htables : ∀ j < INODE_NUM, j ≠ inum → NDIRECT < s.nblocks j → NDIRECT < blocksNum buf.length →
      (s.inode j).indirect ≠ ino₁.indirect)
    (hdata : ∀ j < INODE_NUM, j ≠ inum → s₁.content (s.inode j) = s.content (s.inode j)) :
    Whole junk now s inum buf := by
  obtain ⟨s', hrun, hafter⟩ := writeFile_after now hinum hbuf hresize hp.table hp.tableLow
  refine ⟨s', hrun, hp.readFile_self hinum hbuf hafter junk, fun j hj hne stack content hcontent => ?_,
    fun b => hp.low_block hafter⟩
  rw [h.readFile hj stack] at hcontent
  cases hcontent
  rw [hp.readFile_other h hinum hafter hj hne (htables j hj hne) stack, hdata j hj hne]

theorem Tabled.blocks {n' : Nat} (ht : Tabled s s₁ ino₁ inum n') (hp : Placed s s₁ ino₁ inum n')
    (hstale : s.Stale inum n') :
    s₁.blocks = (s.setBlock (s.inode inum).indirect.toNat
      (s.tableWith (s.inode inum) (s.nblocks inum) n')).blocks := by
  obtain ⟨hind, htable⟩ := ht.stale hstale
  funext b
  by_cases hb : b = (s.inode inum).indirect.toNat
  · rw [hb, htable, Fs.setBlock]
    simp only [Function.update_self]
  · rw [hp.blocks b fun _ => by rwa [hind], Fs.setBlock]
    simp only [Function.update_of_ne hb]

-- Where the pointer is not stale the table is no other file's block.
theorem Tabled.whole (h : Sound s) (hinum : inum < INODE_NUM) (hbuf : buf.length < MAXFILE * BLOCK_SIZE)
    (hresize : resize junk (s.inode inum) (s.nblocks inum) (blocksNum buf.length) s = .ok ino₁ s₁)
    (hp : Placed s s₁ ino₁ inum (blocksNum buf.length)) (ht : Tabled s s₁ ino₁ inum (blocksNum buf.length))
    (hspare : s.Stale inum (blocksNum buf.length) → s.Spare inum (blocksNum buf.length)) :
    Whole junk now s inum buf := by
  by_cases hstale : s.Stale inum (blocksNum buf.length)
  · obtain ⟨hind, htable⟩ := ht.stale hstale
    refine hp.whole h hinum hbuf hresize (fun j hj hne hlt _ => ?_) fun j hj hne => ?_
    · rw [hind]
      exact (hspare hstale).tables j hj hne hlt
    · rw [← (hspare hstale).data j hj hne]
      exact content_of_blocks fun slot _ => by rw [ht.blocks hp hstale]
  · have hapart : ∀ j < INODE_NUM, j ≠ inum → ∀ slot, Uses (s.inode j) (s.nblocks j) False slot →
        NDIRECT < blocksNum buf.length → s.at (s.inode j) slot ≠ ino₁.indirect.toNat :=
      fun j hj hne slot hu hn' heq => ht.apart hn' hstale (heq ▸ h.others hj hne hu)
    refine hp.whole h hinum hbuf hresize (fun j hj hne hlt hn' heq => ?_) fun j hj hne => ?_
    · exact hapart j hj hne .indirect (.indirect_of_lt hlt) hn' (congrArg UInt32.toNat heq)
    · exact content_of_blocks fun slot hu => hp.blocks _ (hapart j hj hne slot hu)

theorem Fs.Fits.whole (h : Sound s) (hinum : inum < INODE_NUM) (hfits : s.Fits inum buf.length) :
    Whole junk now s inum buf := by
  have hmax := blocksNum_le hfits.size.le
  by_cases hn : s.nblocks inum < blocksNum buf.length
  · obtain ⟨ino₁, s₁, hresize, hext | ⟨hn', -, hind, hle, hlen⟩⟩ := h.resize_extended hinum hn hmax junk
    · have htable := h.tableApart hinum hext fun hstale =>
        (h.stale_apart hinum hext hstale).mpr ⟨(hfits.spare hstale).own, (hfits.spare hstale).given⟩
      exact (h.tabled_of_extended hinum hext).whole h hinum hfits.size hresize
        (h.placed_of_extended hinum hext hfits.demand htable) hfits.spare
    · -- there is a block for the table
      have hdemand := hfits.demand
      rw [Fs.demand, if_pos ⟨hle, hn', hind⟩] at hdemand
      omega
  · obtain ⟨s₁, hresize, hblocks⟩ := h.resize_freed hinum (not_lt.mp hn) junk
    obtain ⟨hp, ht⟩ := h.placed_of_freed hinum (not_lt.mp hn) hblocks
    exact ht.whole h hinum hfits.size hresize hp hfits.spare

end Whole

end CseLabs.InodeManager
