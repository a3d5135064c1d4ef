import CseLabs.InodeManager.Files

namespace CseLabs.InodeManager

section Separated

def Fs.nblocks (s : Fs) (inum : Nat) : Nat := blocksNum (s.inode inum).size.toNat

-- An empty file uses no slot.
theorem not_uses_of_empty {s : Fs} {inum : Nat} {keep : Prop} (hsize : (s.inode inum).size = 0)
    (hkeep : keep → (s.inode inum).indirect = 0) (slot : Slot) : ¬ Uses (s.inode inum) (s.nblocks inum) keep slot := by
  rw [Fs.nblocks, hsize]
  intro huses
  cases slot with
  | data k => exact Nat.not_lt_zero k huses
  | indirect => exact huses.elim (Nat.not_lt_zero _) fun hind => hind.2 (hkeep hind.1)

def Fs.Live (s : Fs) (inum : Nat) : Prop := inum < INODE_NUM ∧ (s.inode inum).type ≠ 0

-- The inodes that count: those in use, or all of them.
def Fs.Counts (s : Fs) (all : Prop) (inum : Nat) : Prop :=
  inum < INODE_NUM ∧ (all ∨ (s.inode inum).type ≠ 0)

def Fs.Refers (s : Fs) (all : Prop) (inum : Nat) (slot : Slot) : Prop :=
  s.Counts all inum ∧ Uses (s.inode inum) (s.nblocks inum) all slot

def Fs.ref (s : Fs) (inum : Nat) (slot : Slot) : Nat := s.at (s.inode inum) slot

-- The blocks of the other files.
def Fs.others (s : Fs) (all : Prop) (inum b : Nat) : Prop :=
  ∃ j slot, j ≠ inum ∧ s.Refers all j slot ∧ s.ref j slot = b

-- No two files share a block. If all inodes count, so do the indirect blocks that files
-- which have shrunk still keep.
structure Separated (all : Prop) (s : Fs) : Prop where
  owns : ∀ inum, s.Counts all inum → Owns s (s.inode inum) (s.nblocks inum) all (s.others all inum)
  size : ∀ inum, s.Counts all inum → (s.inode inum).size.toNat < MAXFILE * BLOCK_SIZE
  exhausted : s.exhausted = false

variable {all : Prop} {s s' : Fs} {inum : Nat}

theorem Separated.others_marked (h : Separated all s) (inum b : Nat) (hb : s.others all inum b) :
    s.usingBlocks b = true := by
  obtain ⟨j, slot, -, hrefers, rfl⟩ := hb
  exact ((h.owns j hrefers.1).mine slot hrefers.2).marked

-- A file none of whose blocks has been touched.
structure Untouched (s s' : Fs) (all : Prop) (j : Nat) : Prop where
  inode : s'.inode j = s.inode j
  ref : ∀ slot, s.Refers all j slot → s'.ref j slot = s.ref j slot
  marks : ∀ slot, s.Refers all j slot → s'.usingBlocks (s.ref j slot) = true
  content : s.Counts all j → s'.content (s'.inode j) = s.content (s.inode j)

theorem Untouched.refers {j : Nat} {slot : Slot} (h : Untouched s s' all j) :
    s'.Refers all j slot ↔ s.Refers all j slot := by
  simp only [Fs.Refers, Fs.Counts, Fs.nblocks, h.inode]

-- A file whose blocks have not changed.
theorem blockid_of_blocks {ino : Inode} {n k : Nat}
    (hblocks : ∀ slot, Uses ino n False slot → s'.blocks (s.at ino slot) = s.blocks (s.at ino slot)) (hk : k < n) :
    s'.blockid ino k = s.blockid ino k :=
  blockid_congr rfl fun hle => hblocks .indirect (.indirect_of_lt (by omega))

theorem content_of_blocks {ino : Inode}
    (hblocks : ∀ slot, Uses ino (blocksNum ino.size.toNat) False slot →
      s'.blocks (s.at ino slot) = s.blocks (s.at ino slot)) : s'.content ino = s.content ino := by
  refine List.map_congr_left fun q hq => ?_
  have hk : q / BLOCK_SIZE < blocksNum ino.size.toNat :=
    lt_blocksNum_iff.mpr ((Nat.div_mul_le_self q BLOCK_SIZE).trans_lt (List.mem_range.mp hq))
  rw [blockid_of_blocks hblocks hk]
  exact congrArg (fun b : Data => b.byte (q % BLOCK_SIZE)) (hblocks (.data (q / BLOCK_SIZE)) hk)

theorem untouched_of_blocks {j : Nat}
    (hiblock : s'.blocks (IBLOCK j BLOCK_NUM) = s.blocks (IBLOCK j BLOCK_NUM))
    (hblocks : ∀ slot, s.Refers all j slot → s'.blocks (s.ref j slot) = s.blocks (s.ref j slot))
    (hmarks : ∀ slot, s.Refers all j slot → s'.usingBlocks (s.ref j slot) = true) :
    Untouched s s' all j := by
  have hinode : s'.inode j = s.inode j := inode_congr hiblock
  have hused : s.Counts all j → ∀ slot, Uses (s.inode j) (s.nblocks j) False slot →
      s'.blocks (s.at (s.inode j) slot) = s.blocks (s.at (s.inode j) slot) :=
    fun hcounts slot hu => hblocks slot ⟨hcounts, hu.mono le_rfl False.elim⟩
  refine ⟨hinode, fun slot hrefers => ?_, hmarks, fun hcounts => ?_⟩
  · rw [Fs.ref, Fs.ref, hinode]
    cases slot with
    | data k => exact blockid_of_blocks (hused hrefers.1) hrefers.2
    | indirect => rfl
  · rw [hinode]
    exact content_of_blocks (hused hcounts)

theorem Owns.others_mono {ino : Inode} {n : Nat} {keep : Prop} {others others' : Nat → Prop}
    (h : Owns s ino n keep others) (hsub : ∀ slot, Uses ino n keep slot → others' (s.at ino slot) → others (s.at ino slot)) :
    Owns s ino n keep others' where
  mine slot hu :=
    ⟨(h.mine slot hu).low, (h.mine slot hu).high, (h.mine slot hu).marked,
      fun hb => (h.mine slot hu).apart (hsub slot hu hb)⟩
  inj := h.inj

-- One file changes and the others are untouched.
theorem Separated.change (h : Separated all s) (inum : Nat) (huntouched : ∀ j ≠ inum, j < INODE_NUM → Untouched s s' all j)
    (howns : s'.Counts all inum → Owns s' (s'.inode inum) (s'.nblocks inum) all (s.others all inum))
    (hsize : s'.Counts all inum → (s'.inode inum).size.toNat < MAXFILE * BLOCK_SIZE)
    (hexhausted : s'.exhausted = false) : Separated all s' := by
  have hcounts : ∀ j ≠ inum, s'.Counts all j → s.Counts all j := by
    intro j hj hcounts
    rwa [Fs.Counts, (huntouched j hj hcounts.1).inode] at hcounts
  -- the references of the other files are the old ones
  have hold : ∀ j ≠ inum, ∀ slot, s'.Refers all j slot → s.Refers all j slot ∧ s.ref j slot = s'.ref j slot := by
    intro j hj slot hrefers
    have hu := huntouched j hj hrefers.1.1
    exact ⟨hu.refers.mp hrefers, (hu.ref slot (hu.refers.mp hrefers)).symm⟩
  constructor
  · intro j hj
    by_cases he : j = inum
    · subst j
      refine (howns hj).others_mono fun slot hu => ?_
      rintro ⟨k, other, hk, hrefers, heq⟩
      obtain ⟨hrefers, href⟩ := hold k hk other hrefers
      exact ⟨k, other, hk, hrefers, href.trans heq⟩
    · have hu := huntouched j he hj.1
      have hrefers : ∀ slot, Uses (s.inode j) (s.nblocks j) all slot → s.Refers all j slot :=
        fun slot huses => ⟨hcounts j he hj, huses⟩
      have hsame : Owns s' (s'.inode j) (s'.nblocks j) all (s.others all j) := by
        rw [Fs.nblocks, hu.inode]
        refine (h.owns j (hcounts j he hj)).transfer rfl (fun slot huses => ?_)
          fun slot huses => hu.marks slot (hrefers slot huses)
        have href := hu.ref slot (hrefers slot huses)
        rwa [Fs.ref, hu.inode] at href
      refine hsame.others_mono fun slot huses => ?_
      have hmine := hold j he slot ⟨hj, huses⟩
      rintro ⟨k, other, hk, hother, heq⟩
      by_cases hki : k = inum
      · subst k
        exact absurd ⟨j, slot, he, hmine.1, hmine.2.trans heq.symm⟩ ((howns hother.1).mine other hother.2).apart
      · obtain ⟨hother, href⟩ := hold k hki other hother
        exact ⟨k, other, hk, hother, href.trans heq⟩
  · intro j hj
    by_cases he : j = inum
    · subst j
      exact hsize hj
    · rw [(huntouched j he hj.1).inode]
      exact h.size j (hcounts j he hj)
  · exact hexhausted

-- write_file leaves a file whose blocks are its own, and touches no other file.
theorem Written.untouched {buf : Bytes} {keep : Prop} (h : Separated all s) (hinum : inum < INODE_NUM)
    (hwritten : Written s s' inum buf keep (s.others all inum)) {j : Nat} (hj : j ≠ inum) (hlt : j < INODE_NUM) :
    Untouched s s' all j := by
  refine untouched_of_blocks ?_ ?_ ?_
  · exact hwritten.blocks _ (mt iblock_inj.mp hj) (.inl (iblock_lt_fileblock hlt))
  · intro slot hrefers
    refine hwritten.blocks _ (fun heq => ?_) (.inr ⟨j, slot, hj, hrefers, rfl⟩)
    have hlow : FILEBLOCK ≤ s.ref j slot := ((h.owns j hrefers.1).mine slot hrefers.2).low
    have hiblock := iblock_lt_fileblock hinum
    omega
  · intro slot hrefers
    exact hwritten.marks _ ⟨j, slot, hj, hrefers, rfl⟩

theorem Written.separated {buf : Bytes} {keep : Prop} (h : Separated all s) (hinum : inum < INODE_NUM)
    (hbuf : buf.length < MAXFILE * BLOCK_SIZE) (hkeep : all → keep)
    (hwritten : Written s s' inum buf keep (s.others all inum)) : Separated all s' := by
  refine h.change inum (fun j hj hlt => hwritten.untouched h hinum hj hlt) ?_ ?_ hwritten.exhausted
  · intro _
    rw [Fs.nblocks, hwritten.size]
    exact hwritten.owns.mono le_rfl hkeep
  · intro _
    rw [hwritten.size]
    exact hbuf

end Separated

section Steps

variable {all : Prop} {s s' : Fs} {inum : Nat}

-- A file about to get its first block past the direct ones finds no indirect block, or one
-- that is marked and that no file refers to.
def Fs.IndirectOk (s : Fs) (all : Prop) (inum : Nat) : Prop :=
  (s.inode inum).indirect = 0 ∨ Mine s (fun b => ∃ j slot, s.Refers all j slot ∧ s.ref j slot = b)
    (s.inode inum).indirect.toNat

-- Under that condition the indirect block counts as one of the file's own.
theorem Separated.owns_indirect (h : Separated all s) (hcounts : s.Counts all inum)
    (hind : ¬ all → s.nblocks inum ≤ NDIRECT → s.IndirectOk all inum) :
    Owns s (s.inode inum) (s.nblocks inum) True (s.others all inum) := by
  have howns := h.owns inum hcounts
  by_cases hown : all ∨ NDIRECT < s.nblocks inum
  · have huses : ∀ slot, Uses (s.inode inum) (s.nblocks inum) True slot →
        Uses (s.inode inum) (s.nblocks inum) all slot := by
      intro slot hu
      cases slot with
      | data k => exact hu
      | indirect => exact hown.elim (fun hall => hu.imp_right fun hk => ⟨hall, hk.2⟩) .inl
    exact ⟨fun slot hu => howns.mine slot (huses slot hu),
      fun a b ha hb => howns.inj a b (huses a ha) (huses b hb)⟩
  · rw [not_or, not_lt] at hown
    -- only the indirect block is new
    have huses : ∀ slot, Uses (s.inode inum) (s.nblocks inum) True slot →
        Uses (s.inode inum) (s.nblocks inum) all slot ∨ slot = .indirect ∧ (s.inode inum).indirect ≠ 0 := by
      intro slot hu
      cases slot with
      | data k => exact .inl hu
      | indirect => exact hu.elim (fun hlt => absurd hlt (not_lt.mpr hown.2)) fun hk => .inr ⟨rfl, hk.2⟩
    have hmine : (s.inode inum).indirect ≠ 0 → Mine s (fun b => ∃ j slot, s.Refers all j slot ∧ s.ref j slot = b)
        (s.inode inum).indirect.toNat := fun hne => (hind hown.1 hown.2).resolve_left hne
    have hapart : ∀ slot, Uses (s.inode inum) (s.nblocks inum) all slot → (s.inode inum).indirect ≠ 0 →
        s.at (s.inode inum) slot ≠ (s.inode inum).indirect.toNat :=
      fun slot hu hne heq => (hmine hne).apart ⟨inum, slot, ⟨hcounts, hu⟩, heq⟩
    constructor
    · intro slot hu
      rcases huses slot hu with hold | ⟨rfl, hne⟩
      · exact howns.mine slot hold
      · exact ⟨(hmine hne).low, (hmine hne).high, (hmine hne).marked,
          fun ⟨j, slot, _, hrefers, heq⟩ => (hmine hne).apart ⟨j, slot, hrefers, heq⟩⟩
    · intro a b ha hb heq
      rcases huses a ha with holda | ⟨rfl, hne⟩ <;> rcases huses b hb with holdb | ⟨rfl, hne'⟩
      · exact howns.inj a b holda holdb heq
      · exact absurd heq (hapart a holda hne')
      · exact absurd heq.symm (hapart b holdb hne)
      · rfl

theorem Separated.owns_write {n' : Nat} (h : Separated all s) (hcounts : s.Counts all inum)
    (hind : ¬ all → s.nblocks inum ≤ NDIRECT → NDIRECT < n' → s.IndirectOk all inum) :
    ∃ keep : Prop, (all → keep) ∧ (NDIRECT < n' → keep) ∧
      Owns s (s.inode inum) (s.nblocks inum) keep (s.others all inum) := by
  by_cases hgrow : NDIRECT < n'
  · exact ⟨True, fun _ => trivial, fun _ => trivial,
      h.owns_indirect hcounts fun hall hle => hind hall hle hgrow⟩
  · exact ⟨all, fun hall => hall, fun hlt => absurd hlt hgrow, h.owns inum hcounts⟩

theorem Separated.writeFile (junk : Stack) (now : Times) {buf : Bytes} (h : Separated all s)
    (hcounts : s.Counts all inum) (hbuf : buf.length < MAXFILE * BLOCK_SIZE)
    (hind : ¬ all → s.nblocks inum ≤ NDIRECT → NDIRECT < blocksNum buf.length → s.IndirectOk all inum) :
    (∃ s' keep, writeFile junk now inum buf s = .ok () s' ∧ (all → keep) ∧
      Written s s' inum buf keep (s.others all inum)) ∨ Lost (writeFile junk now inum buf s) := by
  obtain ⟨keep, hkeep, hgrow, howns⟩ := h.owns_write hcounts hind
  rcases writeFile_run junk now hcounts.1 (h.size inum hcounts).le hbuf howns hgrow (h.others_marked inum)
    h.exhausted with ⟨s', hrun, hwritten⟩ | hlost
  · exact .inl ⟨s', keep, hrun, hkeep, hwritten⟩
  · exact .inr hlost

theorem Separated.readFile (h : Separated all s) (hcounts : s.Counts all inum) (junk : Stack) :
    readFile junk inum s = .ok (some (s.content (s.inode inum))) s :=
  readFile_run junk hcounts.1 rfl (h.size inum hcounts).le (h.owns inum hcounts)

theorem getattr_run (hinum : inum < INODE_NUM) (a : Attr) :
    getattr inum a s = .ok { type := (s.inode inum).type.toInt16.toInt32.toUInt32, atime := (s.inode inum).atime
                             mtime := (s.inode inum).mtime, ctime := (s.inode inum).ctime
                             size := (s.inode inum).size } s := by
  rw [getattr, bind_ok (getInode_run hinum)]
  rfl

-- A new inode for one file, and perhaps blocks of that file freed.
theorem Separated.untouched_setInode {s₁ : Fs} {ino : Inode} (h : Separated all s) (hinum : inum < INODE_NUM)
    (hblocks : s₁.blocks = s.blocks) {j : Nat} (hj : j ≠ inum)
    (hmarks : ∀ slot, s.Refers all j slot → s₁.usingBlocks (s.ref j slot) = true) :
    Untouched s (s₁.setInode inum ino) all j := by
  refine untouched_of_blocks ?_ (fun slot hrefers => ?_) hmarks
  · rw [setInode_blocks_of_ne (mt iblock_inj.mp hj), hblocks]
  · rw [setInode_blocks_of_ne, hblocks]
    intro heq
    have hlow : FILEBLOCK ≤ s.ref j slot := ((h.owns j hrefers.1).mine slot hrefers.2).low
    have hiblock := iblock_lt_fileblock hinum
    omega

theorem Separated.allocInode (h : Separated all s) (hinum : inum < INODE_NUM) (type : UInt16) :
    Separated all (s.setInode inum ((s.inode inum).fresh type)) := by
  have hinode := inode_setInode_self (s := s) inum ((s.inode inum).fresh type)
  refine h.change inum (fun j hj _ => ?_) (fun _ => ?_) (fun _ => ?_) h.exhausted
  · exact h.untouched_setInode hinum rfl hj fun slot hrefers =>
      ((h.owns j hrefers.1).mine slot hrefers.2).marked
  · have hzero : (s.setInode inum ((s.inode inum).fresh type)).nblocks inum = 0 := by
      rw [Fs.nblocks, hinode]
      rfl
    rw [hzero, hinode]
    by_cases hall : all
    · have hold := (h.owns inum ⟨hinum, .inl hall⟩).mono (Nat.zero_le _) fun hk => hk
      refine hold.transfer rfl (fun slot hu => ?_) fun slot hu => (hold.mine slot hu).marked
      cases slot with
      | data k => exact absurd hu (Nat.not_lt_zero k)
      | indirect => rfl
    · -- an empty file refers to nothing
      have huses : ∀ slot, ¬ Uses ((s.inode inum).fresh type) 0 all slot := by
        intro slot hu
        cases slot with
        | data k => exact Nat.not_lt_zero k hu
        | indirect => exact hu.elim (Nat.not_lt_zero _) fun hk => hall hk.1
      exact ⟨fun slot hu => absurd hu (huses slot), fun a b ha => absurd ha (huses a)⟩
  · rw [hinode]
    show (0 : UInt32).toNat < MAXFILE * BLOCK_SIZE
    decide

theorem freeInode_run (hinum : inum < INODE_NUM) (htype : (s.inode inum).type ≠ 0) :
    freeInode inum s = .ok () (s.setInode inum ((s.inode inum).fresh 0)) := by
  rw [freeInode, bind_ok (getInode_run hinum)]
  dsimp only
  rw [if_neg htype, putInode_run hinum]
  rfl

-- A file in use is removed: its blocks are freed.
theorem Separated.removeFile_run (junk : Stack) (h : Separated False s) (hlive : s.Live inum) :
    ∃ s₁ : Fs, removeFile junk inum s = .ok () (s₁.setInode inum ((s.inode inum).fresh 0)) ∧
      s₁.blocks = s.blocks ∧ s₁.exhausted = false ∧
      ∀ b, s₁.usingBlocks b = true ↔
        s.usingBlocks b = true ∧ ∀ slot, s.Refers False inum slot → s.ref inum slot ≠ b := by
  have hcounts : s.Counts False inum := ⟨hlive.1, .inr hlive.2⟩
  have howns := h.owns inum hcounts
  have hmax : 0 + s.nblocks inum ≤ MAXFILE := by
    rw [Nat.zero_add]
    exact blocksNum_le (h.size inum hcounts).le
  obtain ⟨s₁, hfree, hfreed⟩ := freeFrom_run (s := s) junk (s.inode inum) hmax fun hlt => by
    rw [Nat.zero_add] at hlt
    exact ⟨howns.indirect_ne_zero hlt, (howns.mine .indirect (.indirect_of_lt hlt)).high⟩
  rw [Nat.zero_add] at hfreed
  have hlast : ∀ s₂ : Fs, s₂.blocks = s.blocks →
      freeInode inum s₂ = .ok () (s₂.setInode inum ((s.inode inum).fresh 0)) := by
    intro s₂ hs₂
    have hinode : s₂.inode inum = s.inode inum := inode_congr (by rw [hs₂])
    rw [freeInode_run hlive.1 (hinode ▸ hlive.2), hinode]
  rw [removeFile, bind_ok (getInode_run hlive.1)]
  dsimp only
  rw [show blocksNum (s.inode inum).size.toNat = s.nblocks inum from rfl, bind_ok hfree]
  by_cases hlt : NDIRECT < s.nblocks inum
  · refine ⟨s₁.mark (s.inode inum).indirect.toNat false, ?_, hfreed.blocks,
      hfreed.exhausted.trans h.exhausted, fun b => ?_⟩
    · rw [if_pos hlt, bind_ok (freeBlock_run _)]
      exact hlast _ hfreed.blocks
    · rw [mark_false_iff, hfreed.marks, and_assoc]
      refine and_congr_right fun _ => ⟨fun ⟨hdata, hind⟩ slot hrefers => ?_, fun hall => ⟨fun k _ hk => ?_, ?_⟩⟩
      · cases slot with
        | data k => exact hdata k (Nat.zero_le k) hrefers.2
        | indirect => exact hind
      · exact hall (.data k) ⟨hcounts, hk⟩
      · exact hall .indirect ⟨hcounts, .indirect_of_lt hlt⟩
  · refine ⟨s₁, ?_, hfreed.blocks, hfreed.exhausted.trans h.exhausted, fun b => ?_⟩
    · rw [if_neg hlt]
      exact hlast _ hfreed.blocks
    · rw [hfreed.marks]
      refine and_congr_right fun _ => ⟨fun hdata slot hrefers => ?_, fun hall k _ hk => ?_⟩
      · cases slot with
        | data k => exact hdata k (Nat.zero_le k) hrefers.2
        | indirect => exact absurd hrefers.2 fun hu => hu.elim hlt fun hk => hk.1
      · exact hall (.data k) ⟨hcounts, hk⟩

theorem Separated.removeFile (junk : Stack) (h : Separated False s) (hlive : s.Live inum) :
    ∃ s', removeFile junk inum s = .ok () s' ∧ Separated False s' := by
  obtain ⟨s₁, hrun, hblocks, hexhausted, hmarks⟩ := h.removeFile_run junk hlive
  have hgone : ¬ (s₁.setInode inum ((s.inode inum).fresh 0)).Counts False inum := by
    rintro ⟨-, hfalse | htype⟩
    · exact hfalse
    · rw [inode_setInode_self] at htype
      exact htype rfl
  refine ⟨_, hrun, h.change inum (fun j hj _ => ?_) (fun hcounts => absurd hcounts hgone)
    (fun hcounts => absurd hcounts hgone) hexhausted⟩
  refine h.untouched_setInode hlive.1 hblocks hj fun slot hrefers => (hmarks _).mpr ?_
  refine ⟨((h.owns j hrefers.1).mine slot hrefers.2).marked, fun other hother heq => ?_⟩
  exact ((h.owns inum hother.1).mine other hother.2).apart ⟨j, slot, hj, hrefers, heq.symm⟩

end Steps

end CseLabs.InodeManager
