import CseLabs.InodeManager.Owns

namespace CseLabs.InodeManager

variable {s s' : Fs} {ino : Inode} {n : Nat} {keep : Prop} {others : Nat → Prop} {junk : Stack}

section Freeing

-- Blocks lo to hi - 1 of the file are no longer marked.
structure Freed (s s' : Fs) (ino : Inode) (lo hi : Nat) : Prop where
  blocks : s'.blocks = s.blocks
  exhausted : s'.exhausted = s.exhausted
  marks : ∀ b, s'.usingBlocks b = true ↔
    s.usingBlocks b = true ∧ ∀ k, lo ≤ k → k < hi → s.blockid ino k ≠ b

theorem mark_false_iff (s : Fs) (id b : Nat) :
    (s.mark id false).usingBlocks b = true ↔ s.usingBlocks b = true ∧ id ≠ b := by
  show Function.update s.usingBlocks id false b = true ↔ _
  by_cases he : b = id
  · simp [he]
  · simp [Function.update_of_ne he, Ne.symm he]

theorem freeFrom_run (junk : Stack) (ino : Inode) {lo count : Nat} (hmax : lo + count ≤ MAXFILE)
    (hind : NDIRECT < lo + count → ino.indirect ≠ 0 ∧ ino.indirect.toNat < BLOCK_NUM) :
    ∃ s', freeFrom junk ino lo count s = .ok () s' ∧ Freed s s' ino lo (lo + count) := by
  induction count generalizing s lo with
  | zero =>
      refine ⟨s, rfl, rfl, rfl, fun b => ?_⟩
      simp only [iff_self_and]
      intro _ k hlo hhi
      omega
  | succ count ih =>
      have hget : getNthBlockid junk ino lo s = .ok (s.blockid ino lo) s :=
        getNthBlockid_run (by omega) fun hle => hind (by omega)
      obtain ⟨s', hrun, hblocks, hexhausted, hmarks⟩ := ih (s := s.mark (s.blockid ino lo) false)
        (show lo + 1 + count ≤ MAXFILE by omega) fun hlt => hind (by omega)
      rw [freeFrom, bind_ok hget, bind_ok (freeBlock_run _)]
      refine ⟨s', hrun, hblocks, hexhausted, fun b => ?_⟩
      rw [hmarks b, mark_false_iff, and_assoc]
      refine and_congr_right fun _ => ⟨fun ⟨hne, hrest⟩ k hlo hhi => ?_, fun hall => ⟨hall lo le_rfl (by omega), ?_⟩⟩
      · rcases Nat.eq_or_lt_of_le hlo with rfl | hlt
        · exact hne
        · exact hrest k hlt (by omega)
      · intro k hlo hhi
        exact hall k (by omega) (by omega)

-- A file that has given up its last blocks.
theorem Owns.freed {n' : Nat} (h : Owns s ino n keep others) (hn : n' ≤ n)
    (hfreed : Freed s s' ino n' n) : Owns s' ino n' keep others := by
  have hsmall := h.mono hn fun hk => hk
  refine hsmall.transfer rfl ?_ ?_
  · intro slot _
    cases slot with
    | data k => exact blockid_congr rfl fun _ => by rw [hfreed.blocks]
    | indirect => rfl
  · intro slot hu
    refine (hfreed.marks _).mpr ⟨(hsmall.mine slot hu).marked, fun k hlo hhi heq => ?_⟩
    have hslot := h.inj (.data k) slot hhi (hu.mono hn fun hk => hk) heq
    subst hslot
    exact absurd hu (by simpa [Uses] using hlo)

end Freeing

section Writing

-- Blocks lo to hi - 1 of the file have been written.
structure Patched (s s' : Fs) (ino : Inode) (lo hi : Nat) (content : Nat → Data) : Prop where
  usingBlocks : s'.usingBlocks = s.usingBlocks
  exhausted : s'.exhausted = s.exhausted
  inside : ∀ k, lo ≤ k → k < hi → s'.blocks (s.blockid ino k) = content k
  outside : ∀ b, (∀ k, lo ≤ k → k < hi → s.blockid ino k ≠ b) → s'.blocks b = s.blocks b

theorem Owns.blockid_inj (h : Owns s ino n keep others) {j k : Nat} (hj : j < n) (hk : k < n)
    (heq : s.blockid ino j = s.blockid ino k) : j = k := by
  have hslot := h.inj (.data j) (.data k) hj hk heq
  cases hslot
  rfl

theorem Owns.blockid_lt (h : Owns s ino n keep others) {k : Nat} (hk : k < n) : s.blockid ino k < BLOCK_NUM :=
  (h.mine (.data k) hk).high

theorem Owns.le_blockid (h : Owns s ino n keep others) {k : Nat} (hk : k < n) : FILEBLOCK ≤ s.blockid ino k :=
  (h.mine (.data k) hk).low

-- The table of block ids is not among the blocks written.
theorem Patched.blockid {lo hi k : Nat} {content : Nat → Data} (hpatch : Patched s s' ino lo hi content)
    (h : Owns s ino n keep others) (hhi : hi ≤ n) (hk : k < n) : s'.blockid ino k = s.blockid ino k := by
  refine blockid_congr rfl fun hle => hpatch.outside _ fun j _ hj heq => ?_
  have hslot := h.inj (.data j) .indirect (show j < n by omega) (.indirect_of_lt (by omega)) heq
  cases hslot

theorem Patched.owns {lo hi : Nat} {content : Nat → Data} (hpatch : Patched s s' ino lo hi content)
    (h : Owns s ino n keep others) (hhi : hi ≤ n) : Owns s' ino n keep others := by
  refine h.transfer rfl ?_ ?_
  · intro slot hu
    cases slot with
    | data k => exact hpatch.blockid h hhi hu
    | indirect => rfl
  · intro slot hu
    rw [hpatch.usingBlocks]
    exact (h.mine slot hu).marked

-- A file of n blocks whose table of ids, if it has one, is not among its blocks.
def TableApart (s : Fs) (ino : Inode) (n : Nat) : Prop :=
  NDIRECT < n → (ino.indirect ≠ 0 ∧ ino.indirect.toNat < BLOCK_NUM) ∧ ∀ k < n, s.blockid ino k ≠ ino.indirect.toNat

-- Blocks lo to hi - 1 of the file have been written one after the other. Where two of them are
-- one block of the disk, the later has replaced the earlier.
structure Overwritten (s s' : Fs) (ino : Inode) (lo hi : Nat) (content : Nat → Data) : Prop where
  usingBlocks : s'.usingBlocks = s.usingBlocks
  exhausted : s'.exhausted = s.exhausted
  last : ∀ k, lo ≤ k → k < hi → s.blockid ino k < BLOCK_NUM →
    (∀ j, k < j → j < hi → s.blockid ino j ≠ s.blockid ino k) → s'.blocks (s.blockid ino k) = content k
  outside : ∀ b, (∀ k, lo ≤ k → k < hi → s.blockid ino k ≠ b) → s'.blocks b = s.blocks b

theorem Owns.tableApart (h : Owns s ino n keep others) : TableApart s ino n := by
  refine fun hn => ⟨⟨h.indirect_ne_zero hn, (h.mine .indirect (.indirect_of_lt hn)).high⟩, fun k hk heq => ?_⟩
  have hslot := h.inj (.data k) .indirect hk (.indirect_of_lt hn) heq
  cases hslot

theorem TableApart.getNthBlockid {k : Nat} (h : TableApart s ino n) (hk : k < n) (hn : n ≤ MAXFILE) :
    InodeManager.getNthBlockid junk ino k s = .ok (s.blockid ino k) s :=
  getNthBlockid_run (by omega) fun hle => (h (by omega)).1

theorem Overwritten.blockid {lo hi k : Nat} {content : Nat → Data} (hover : Overwritten s s' ino lo hi content)
    (h : TableApart s ino n) (hhi : hi ≤ n) (hk : k < n) : s'.blockid ino k = s.blockid ino k :=
  blockid_congr rfl fun hle => hover.outside _ fun j _ hj => (h (by omega)).2 j (by omega)

theorem Overwritten.tableApart {lo hi : Nat} {content : Nat → Data} (hover : Overwritten s s' ino lo hi content)
    (h : TableApart s ino n) (hhi : hi ≤ n) : TableApart s' ino n := by
  refine fun hn => ⟨(h hn).1, fun k hk => ?_⟩
  rw [hover.blockid h hhi hk]
  exact (h hn).2 k hk

theorem Overwritten.trans {s₁ s₂ s₃ : Fs} {lo mid hi : Nat} {content : Nat → Data} (h : TableApart s₁ ino n)
    (hhi : hi ≤ n) (hlo : lo ≤ mid) (hle : mid ≤ hi) (h₁ : Overwritten s₁ s₂ ino lo mid content)
    (h₂ : Overwritten s₂ s₃ ino mid hi content) : Overwritten s₁ s₃ ino lo hi content := by
  have hsame : ∀ k < n, s₂.blockid ino k = s₁.blockid ino k := fun k hk => h₁.blockid h (by omega) hk
  refine ⟨h₂.usingBlocks.trans h₁.usingBlocks, h₂.exhausted.trans h₁.exhausted, ?_, ?_⟩
  · intro k hk hlt hnum hlast
    by_cases hside : k < mid
    · rw [h₂.outside, h₁.last k hk hside hnum fun j hkj hj => hlast j hkj (by omega)]
      intro j hj hjhi
      rw [hsame j (by omega)]
      exact hlast j (by omega) hjhi
    · rw [← hsame k (by omega)] at hnum ⊢
      refine h₂.last k (by omega) hlt hnum fun j hkj hj => ?_
      rw [hsame j (by omega), hsame k (by omega)]
      exact hlast j hkj hj
  · intro b hb
    rw [h₂.outside, h₁.outside]
    · exact fun k hk hlt => hb k hk (by omega)
    · intro k hk hlt
      rw [hsame k (by omega)]
      exact hb k (by omega) hlt

-- A block id out of range leaves the disk as it was.
theorem overwritten_writeBlock (s : Fs) (ino : Inode) (k : Nat) (content : Nat → Data) :
    ∃ s', writeBlock (s.blockid ino k) (content k) s = .ok () s' ∧ Overwritten s s' ino k (k + 1) content := by
  by_cases hid : s.blockid ino k < BLOCK_NUM
  · refine ⟨_, writeBlock_run hid, rfl, rfl, fun j hlo hhi _ _ => ?_, fun b hb => ?_⟩
    · obtain rfl : j = k := by omega
      exact Function.update_self ..
    · exact Function.update_of_ne (hb k le_rfl (by omega)).symm ..
  · refine ⟨s, writeBlock_out hid, rfl, rfl, fun j hlo hhi hnum _ => ?_, fun b _ => rfl⟩
    obtain rfl : j = k := by omega
    exact absurd hnum hid

-- The loop of write_file, whatever it is that goes into the blocks.
def writeEach (junk : Stack) (ino : Inode) (content : Nat → Data) (i : Nat) : Nat → Im Unit
  | 0 => pure ()
  | count + 1 => do
      let id ← getNthBlockid junk ino i
      writeBlock id (content i)
      writeEach junk ino content (i + 1) count

theorem writeFrom_eq (junk : Stack) (ino : Inode) (buf : Bytes) (i count : Nat) :
    writeFrom junk ino buf i count = writeEach junk ino (chunk buf) i count := by
  induction count generalizing i with
  | zero => rfl
  | succ count ih => simp only [writeFrom, writeEach, ih]

theorem writeEach_congr {content content' : Nat → Data} {i count : Nat}
    (h : ∀ k, i ≤ k → k < i + count → content k = content' k) :
    writeEach junk ino content i count = writeEach junk ino content' i count := by
  induction count generalizing i with
  | zero => rfl
  | succ count ih =>
      rw [writeEach, writeEach, h i le_rfl (by omega),
        ih (i := i + 1) fun k hlo hhi => h k (by omega) (by omega)]

theorem writeEach_add (content : Nat → Data) (i a b : Nat) :
    writeEach junk ino content i (a + b) =
      writeEach junk ino content i a >>= fun _ => writeEach junk ino content (i + a) b := by
  induction a generalizing i with
  | zero => simp [writeEach]
  | succ a ih =>
      rw [Nat.add_right_comm, writeEach, ih (i + 1), writeEach, bind_assoc]
      simp only [bind_assoc, Nat.add_assoc, Nat.add_comm 1 a]

theorem TableApart.writeEach (junk : Stack) (content : Nat → Data) {i count : Nat} (h : TableApart s ino n)
    (hn : n ≤ MAXFILE) (hi : i + count ≤ n) :
    ∃ s', writeEach junk ino content i count s = .ok () s' ∧ Overwritten s s' ino i (i + count) content := by
  induction count generalizing s i with
  | zero => exact ⟨s, rfl, rfl, rfl, fun k hlo hhi => by omega, fun _ _ => rfl⟩
  | succ count ih =>
      have hk : i < n := by omega
      obtain ⟨s₁, hwrite, hover⟩ := overwritten_writeBlock s ino i content
      obtain ⟨s', hrest, hover'⟩ := ih (hover.tableApart h hk) (show i + 1 + count ≤ n by omega)
      have hboth := hover.trans h (by omega) (by omega) (by omega) hover'
      refine ⟨s', ?_, by rwa [Nat.add_right_comm, Nat.add_assoc] at hboth⟩
      rw [InodeManager.writeEach, bind_ok (h.getNthBlockid hk hn), bind_ok hwrite]
      exact hrest

-- The blocks of a file are different blocks of the disk.
theorem Overwritten.patched {content : Nat → Data} (hover : Overwritten s s' ino 0 n content)
    (hhigh : ∀ k < n, s.blockid ino k < BLOCK_NUM) (hinj : ∀ j < n, ∀ k < n, s.blockid ino j = s.blockid ino k → j = k) :
    Patched s s' ino 0 n content := by
  refine ⟨hover.usingBlocks, hover.exhausted, fun k hlo hhi => ?_, hover.outside⟩
  refine hover.last k hlo hhi (hhigh k hhi) fun j hkj hj heq => ?_
  have hjk := hinj j hj k hhi heq
  omega

end Writing

section Reading

-- The bytes of a file, as its blocks hold them.
def Fs.content (s : Fs) (ino : Inode) : Bytes :=
  (List.range ino.size.toNat).map fun q => (s.blocks (s.blockid ino (q / BLOCK_SIZE))).byte (q % BLOCK_SIZE)

theorem ofFn_take (b : Data) {r : Nat} (hr : r ≤ BLOCK_SIZE) :
    (List.ofFn b).take r = (List.range r).map b.byte := by
  refine List.ext_getElem (by simp [hr]) fun p hp hp' => ?_
  have hlt : p < BLOCK_SIZE := by simp at hp; omega
  simp [Block.byte_of_lt b hlt]

theorem range_add_map (f : Nat → Data) (k r : Nat) (hr : r ≤ BLOCK_SIZE) :
    (List.range (k * BLOCK_SIZE + r)).map (fun q => (f (q / BLOCK_SIZE)).byte (q % BLOCK_SIZE)) =
      (List.range (k * BLOCK_SIZE)).map (fun q => (f (q / BLOCK_SIZE)).byte (q % BLOCK_SIZE)) ++
        (List.ofFn (f k)).take r := by
  obtain ⟨hblock, -⟩ := file_sizes
  rw [List.range_add, List.map_append, ofFn_take _ hr, List.map_map]
  congr 1
  refine List.map_congr_left fun p hp => ?_
  have hlt := List.mem_range.mp hp
  have hdiv : (k * BLOCK_SIZE + p) / BLOCK_SIZE = k := by
    rw [hblock] at hr ⊢
    omega
  have hmod : (k * BLOCK_SIZE + p) % BLOCK_SIZE = p := by
    rw [hblock] at hr ⊢
    omega
  simp only [Function.comp_apply, hdiv, hmod]

-- What the buffer of read_file holds after k turns of its loop. A block id out of range leaves
-- it as it was.
def Fs.readBuf (s : Fs) (ino : Inode) (junk : Stack) : Nat → Data
  | 0 => junk.file
  | k + 1 => if s.blockid ino k < BLOCK_NUM then s.blocks (s.blockid ino k) else s.readBuf ino junk k

theorem readBuf_of_lt {k : Nat} (h : s.blockid ino k < BLOCK_NUM) :
    s.readBuf ino junk (k + 1) = s.blocks (s.blockid ino k) :=
  if_pos h

theorem readFrom_run (stack junk : Stack) (ino : Inode) {i count : Nat} (hmax : i + count ≤ MAXFILE)
    (hind : NDIRECT < i + count → ino.indirect ≠ 0 ∧ ino.indirect.toNat < BLOCK_NUM) :
    readFrom stack (s.readBuf ino junk i) ino i count s =
      .ok ((List.range' i count).flatMap fun k => List.ofFn (s.readBuf ino junk (k + 1)),
        s.readBuf ino junk (i + count)) s := by
  induction count generalizing i with
  | zero => rfl
  | succ count ih =>
      have hget : getNthBlockid stack ino i s = .ok (s.blockid ino i) s :=
        getNthBlockid_run (by omega) fun hle => hind (by omega)
      have hread : readBlock (s.blockid ino i) (s.readBuf ino junk i) s = .ok (s.readBuf ino junk (i + 1)) s := rfl
      rw [readFrom, bind_ok hget, bind_ok hread,
        bind_ok (ih (show i + 1 + count ≤ MAXFILE by omega) fun hlt => hind (by omega)),
        List.range'_succ, List.flatMap_cons, Nat.add_right_comm, Nat.add_assoc]
      rfl

theorem flatMap_blocks (f : Nat → Data) (count : Nat) :
    (List.range' 0 count).flatMap (fun k => List.ofFn (f k)) =
      (List.range (count * BLOCK_SIZE)).map fun q => (f (q / BLOCK_SIZE)).byte (q % BLOCK_SIZE) := by
  induction count with
  | zero => rfl
  | succ count ih =>
      have hmul : (count + 1) * BLOCK_SIZE = count * BLOCK_SIZE + BLOCK_SIZE := Nat.succ_mul ..
      rw [List.range'_concat, List.flatMap_append, ih, hmul, range_add_map f count BLOCK_SIZE le_rfl]
      simp

-- What read_file gives.
def Fs.readOut (s : Fs) (ino : Inode) (junk : Stack) : Bytes :=
  (List.range ino.size.toNat).map fun q => (s.readBuf ino junk (q / BLOCK_SIZE + 1)).byte (q % BLOCK_SIZE)

theorem readFile_out (junk : Stack) {inum : Nat} (hinum : inum < INODE_NUM) (hino : s.inode inum = ino)
    (hsize : ino.size.toNat ≤ MAXFILE * BLOCK_SIZE)
    (hind : NDIRECT < blocksNum ino.size.toNat → ino.indirect ≠ 0 ∧ ino.indirect.toNat < BLOCK_NUM) :
    readFile junk inum s = .ok (some (s.readOut ino junk)) s := by
  have hn := blocksNum_le hsize
  have hblocks := blocksNum_eq ino.size.toNat
  have hdiv := Nat.div_add_mod' ino.size.toNat BLOCK_SIZE
  have hloop := readFrom_run (s := s) junk junk ino
    (show 0 + ino.size.toNat / BLOCK_SIZE ≤ MAXFILE by omega) fun hlt => hind (by omega)
  rw [show s.readBuf ino junk 0 = junk.file from rfl] at hloop
  rw [readFile, bind_ok (getInode_run hinum), hino]
  simp only [if_neg (not_lt.mpr hsize)]
  rw [bind_ok hloop, flatMap_blocks fun k => s.readBuf ino junk (k + 1)]
  by_cases hrem : ino.size.toNat % BLOCK_SIZE = 0
  · rw [hrem, Nat.add_zero] at hdiv
    simp only [hrem, ne_eq, not_true_eq_false, if_false]
    rw [hdiv]
    rfl
  · rw [if_neg hrem] at hblocks
    have hget : getNthBlockid junk ino (ino.size.toNat / BLOCK_SIZE) s = .ok _ s :=
      getNthBlockid_run (by omega) fun hle => hind (by omega)
    have hread : readBlock (s.blockid ino (ino.size.toNat / BLOCK_SIZE))
        (s.readBuf ino junk (0 + ino.size.toNat / BLOCK_SIZE)) s =
        .ok (s.readBuf ino junk (ino.size.toNat / BLOCK_SIZE + 1)) s := by
      rw [Nat.zero_add]
      rfl
    simp only [hrem, ne_eq, not_false_iff, if_true]
    rw [bind_ok hget, bind_ok hread,
      ← range_add_map (fun k => s.readBuf ino junk (k + 1)) _ _ (Nat.mod_lt _ (by decide)).le, hdiv]
    rfl

theorem readOut_eq_content (h : ∀ k < blocksNum ino.size.toNat, s.blockid ino k < BLOCK_NUM) :
    s.readOut ino junk = s.content ino := by
  refine List.map_congr_left fun q hq => ?_
  have hk : q / BLOCK_SIZE < blocksNum ino.size.toNat :=
    lt_blocksNum_iff.mpr ((Nat.div_mul_le_self q BLOCK_SIZE).trans_lt (List.mem_range.mp hq))
  rw [readBuf_of_lt (h _ hk)]

theorem readFile_run (junk : Stack) {inum : Nat} (hinum : inum < INODE_NUM) (hino : s.inode inum = ino)
    (hsize : ino.size.toNat ≤ MAXFILE * BLOCK_SIZE) (h : Owns s ino (blocksNum ino.size.toNat) keep others) :
    readFile junk inum s = .ok (some (s.content ino)) s := by
  rw [readFile_out junk hinum hino hsize fun hlt => (h.tableApart hlt).1, readOut_eq_content fun k => h.blockid_lt]

end Reading

section WriteFile

-- A file has got the number of blocks its new content needs.
structure Resized (s s' : Fs) (ino ino' : Inode) (n : Nat) (keep : Prop) (others : Nat → Prop) : Prop where
  owns : Owns s' ino' n keep others
  blocks : ∀ b, b < FILEBLOCK ∨ others b → s'.blocks b = s.blocks b
  marks : ∀ b, others b → s'.usingBlocks b = true
  attrs : ino' = { ino with blocks := ino'.blocks }
  exhausted : s'.exhausted = false

theorem Owns.resize (junk : Stack) {n' : Nat} (h : Owns s ino n keep others) (hn : n ≤ MAXFILE) (hn' : n' ≤ MAXFILE)
    (hkeep : NDIRECT < n' → keep) (hothers : ∀ b, others b → s.usingBlocks b = true)
    (hexhausted : s.exhausted = false) :
    (∃ ino' s', resize junk ino n n' s = .ok ino' s' ∧ Resized s s' ino ino' n' keep others) ∨
      Lost (resize junk ino n n' s) := by
  by_cases hlt : n < n'
  · simp only [InodeManager.resize, hlt, if_true]
    have hcount : n + (n' - n) = n' := by omega
    rcases h.allocFrom junk (show n + (n' - n) ≤ MAXFILE by omega) (by rwa [hcount]) hothers hexhausted with
      ⟨ino', s', hrun, hgrown⟩ | hlost
    · rw [hcount] at hgrown
      exact .inl ⟨ino', s', hrun, hgrown.owns, hgrown.blocks, fun b hb => hgrown.marks b (hothers b hb),
        hgrown.attrs, hgrown.exhausted⟩
    · exact .inr hlost
  · have hle : n' ≤ n := by omega
    have hcount : n' + (n - n') = n := by omega
    obtain ⟨s', hrun, hfreed⟩ := freeFrom_run (s := s) junk ino (show n' + (n - n') ≤ MAXFILE by omega)
      fun hind => ⟨h.indirect_ne_zero (by omega), (h.mine .indirect (.indirect_of_lt (by omega))).high⟩
    rw [hcount] at hfreed
    simp only [InodeManager.resize, hlt, if_false]
    rw [bind_ok hrun]
    refine .inl ⟨ino, s', rfl, h.freed hle hfreed, fun b _ => by rw [hfreed.blocks], fun b hb => ?_, rfl,
      hfreed.exhausted.trans hexhausted⟩
    refine (hfreed.marks b).mpr ⟨hothers b hb, fun k _ hk heq => ?_⟩
    subst heq
    exact (h.mine (.data k) hk).apart hb

-- What block k of the file holds after write_file.
def fileBlock (junk : Stack) (buf : Bytes) (k : Nat) : Data :=
  if k < buf.length / BLOCK_SIZE then chunk buf k else lastChunk junk.file buf k

theorem byte_fileBlock (junk : Stack) (buf : Bytes) {q : Nat} (hq : q < buf.length) :
    (fileBlock junk buf (q / BLOCK_SIZE)).byte (q % BLOCK_SIZE) = buf[q] := by
  obtain ⟨hblock, -⟩ := file_sizes
  have hmod : q % BLOCK_SIZE < BLOCK_SIZE := Nat.mod_lt _ (by decide)
  have hdiv : q / BLOCK_SIZE * BLOCK_SIZE + q % BLOCK_SIZE = q := Nat.div_add_mod' q BLOCK_SIZE
  rw [Block.byte_of_lt _ hmod, fileBlock]
  split
  · simp only [chunk, hdiv]
    rw [List.getD_eq_getElem?_getD, List.getElem?_eq_getElem hq, Option.getD_some]
  · next hlast =>
      have hrem : q % BLOCK_SIZE < buf.length % BLOCK_SIZE := by
        rw [hblock] at hlast ⊢
        omega
      simp only [lastChunk, hrem, if_true, hdiv]
      rw [List.getD_eq_getElem?_getD, List.getElem?_eq_getElem hq, Option.getD_some]

theorem writeData_eq (junk : Stack) (ino : Inode) (buf : Bytes) :
    writeData junk ino buf = writeEach junk ino (fileBlock junk buf) 0 (blocksNum buf.length) := by
  have hloop : writeFrom junk ino buf 0 (buf.length / BLOCK_SIZE) =
      writeEach junk ino (fileBlock junk buf) 0 (buf.length / BLOCK_SIZE) := by
    rw [writeFrom_eq]
    exact writeEach_congr fun k _ hk => (if_pos (by omega)).symm
  have hlast : fileBlock junk buf (buf.length / BLOCK_SIZE) = lastChunk junk.file buf (buf.length / BLOCK_SIZE) :=
    if_neg (lt_irrefl _)
  rw [writeData, hloop, blocksNum_eq, writeEach_add, Nat.zero_add, ← hlast]
  by_cases hrem : buf.length % BLOCK_SIZE = 0
  · simp only [hrem, ne_eq, not_true_eq_false, if_false, if_true]
    rfl
  · simp only [hrem, ne_eq, not_false_iff, if_true, if_false, writeEach, bind_pure_unit]

theorem TableApart.writeData (junk : Stack) (buf : Bytes) (h : TableApart s ino (blocksNum buf.length))
    (hbuf : buf.length ≤ MAXFILE * BLOCK_SIZE) :
    ∃ s', writeData junk ino buf s = .ok () s' ∧
      Overwritten s s' ino 0 (blocksNum buf.length) (fileBlock junk buf) := by
  obtain ⟨s', hrun, hover⟩ := h.writeEach junk (fileBlock junk buf) (blocksNum_le hbuf) (Nat.zero_add _).le
  rw [Nat.zero_add] at hover
  exact ⟨s', by rwa [writeData_eq], hover⟩

theorem Owns.writeData (junk : Stack) (buf : Bytes) (h : Owns s ino (blocksNum buf.length) keep others)
    (hbuf : buf.length ≤ MAXFILE * BLOCK_SIZE) :
    ∃ s', writeData junk ino buf s = .ok () s' ∧
      Patched s s' ino 0 (blocksNum buf.length) (fileBlock junk buf) := by
  obtain ⟨s', hrun, hover⟩ := h.tableApart.writeData junk buf hbuf
  exact ⟨s', hrun, hover.patched (fun k => h.blockid_lt) fun j hj k hk => h.blockid_inj hj hk⟩

-- The state after write_file.
structure Written (s s' : Fs) (inum : Nat) (buf : Bytes) (keep : Prop) (others : Nat → Prop) : Prop where
  owns : Owns s' (s'.inode inum) (blocksNum buf.length) keep others
  size : (s'.inode inum).size.toNat = buf.length
  type : (s'.inode inum).type = (s.inode inum).type
  content : s'.content (s'.inode inum) = buf
  blocks : ∀ b, b ≠ IBLOCK inum BLOCK_NUM → b < FILEBLOCK ∨ others b → s'.blocks b = s.blocks b
  marks : ∀ b, others b → s'.usingBlocks b = true
  exhausted : s'.exhausted = false

theorem getNthBlockid_sticky (junk : Stack) (ino : Inode) (k : Nat) : Sticky (getNthBlockid junk ino k) := by
  unfold getNthBlockid
  split
  · exact .pure _
  · split
    · split
      · exact .throw _
      · exact (readBlock_sticky _ _).bind fun _ => .pure _
    · exact .throw _

theorem writeFrom_sticky (junk : Stack) (ino : Inode) (buf : Bytes) (i count : Nat) :
    Sticky (writeFrom junk ino buf i count) := by
  induction count generalizing i with
  | zero => exact .pure _
  | succ count ih =>
      exact (getNthBlockid_sticky junk ino i).bind fun _ => (writeBlock_sticky _ _).bind fun _ => ih (i + 1)

theorem writeData_sticky (junk : Stack) (ino : Inode) (buf : Bytes) : Sticky (writeData junk ino buf) := by
  refine (writeFrom_sticky junk ino buf 0 _).bind fun _ => ?_
  split
  · exact (getNthBlockid_sticky junk ino _).bind fun _ => writeBlock_sticky _ _
  · exact .pure _

theorem toNat_ofNat_size {size : Nat} (h : size ≤ MAXFILE * BLOCK_SIZE) : (UInt32.ofNat size).toNat = size :=
  UInt32.toNat_ofNat_of_lt' (h.trans_lt (by decide))

-- The inode table is below the file area.
theorem setInode_blocks_of_le {inum b : Nat} {ino : Inode} (hinum : inum < INODE_NUM) (hb : FILEBLOCK ≤ b) :
    (s.setInode inum ino).blocks b = s.blocks b := by
  refine setInode_blocks_of_ne fun heq => ?_
  have hlt := iblock_lt_fileblock hinum
  omega

theorem Owns.blockid_setInode {ino' : Inode} {inum k : Nat} (h : Owns s ino n keep others) (hinum : inum < INODE_NUM)
    (hblocks : ino'.blocks = ino.blocks) (hk : k < n) : (s.setInode inum ino').blockid ino' k = s.blockid ino k := by
  refine blockid_congr hblocks fun hle => setInode_blocks_of_le hinum ?_
  exact (h.mine .indirect (.indirect_of_lt (by omega))).low

-- put_inode after the data.
theorem Resized.written {s₁ s₂ : Fs} {ino₁ ino' : Inode} {inum : Nat} {buf : Bytes} (hinum : inum < INODE_NUM)
    (hresized : Resized s s₁ (s.inode inum) ino₁ (blocksNum buf.length) keep others)
    (hpatch : Patched s₁ s₂ ino₁ 0 (blocksNum buf.length) (fileBlock junk buf))
    (hblocks : ino'.blocks = ino₁.blocks) (htype : ino'.type = ino₁.type)
    (hlen : ino'.size.toNat = buf.length) : Written s (s₂.setInode inum ino') inum buf keep others := by
  have howns := hpatch.owns hresized.owns le_rfl
  have hinode : (s₂.setInode inum ino').inode inum = ino' := inode_setInode_self inum ino'
  have hfile : ∀ b, FILEBLOCK ≤ b → (s₂.setInode inum ino').blocks b = s₂.blocks b :=
    fun b => setInode_blocks_of_le hinum
  have hid : ∀ k < blocksNum buf.length, (s₂.setInode inum ino').blockid ino' k = s₂.blockid ino₁ k :=
    fun k => howns.blockid_setInode hinum hblocks
  refine ⟨?_, ?_, ?_, ?_, ?_, ?_, hpatch.exhausted.trans hresized.exhausted⟩
  · rw [hinode]
    refine howns.transfer hblocks (fun slot hu => ?_) fun slot hu => (howns.mine slot hu).marked
    cases slot with
    | data k => exact hid k hu
    | indirect => exact congrArg UInt32.toNat (congrFun hblocks _)
  · rw [hinode, hlen]
  · rw [hinode, htype, hresized.attrs]
  · rw [hinode, Fs.content, hlen]
    refine List.ext_getElem (by simp) fun q hq hq' => ?_
    have hk : q / BLOCK_SIZE < blocksNum buf.length :=
      lt_blocksNum_iff.mpr ((Nat.div_mul_le_self q BLOCK_SIZE).trans_lt hq')
    rw [List.getElem_map, List.getElem_range, hid _ hk, hfile _ (howns.le_blockid hk),
      hpatch.blockid hresized.owns le_rfl hk, hpatch.inside _ (Nat.zero_le _) hk, byte_fileBlock junk buf hq']
  · intro b hne hb
    rw [setInode_blocks_of_ne hne, hpatch.outside b, hresized.blocks b hb]
    rintro k - hk rfl
    have hmine := hresized.owns.mine (.data k) hk
    exact hb.elim (fun hlt => absurd hmine.low (not_le.mpr hlt)) hmine.apart
  · intro b hb
    rw [show (s₂.setInode inum ino').usingBlocks = s₁.usingBlocks from hpatch.usingBlocks]
    exact hresized.marks b hb

theorem writeFile_run (junk : Stack) (now : Times) {inum : Nat} {buf : Bytes} (hinum : inum < INODE_NUM)
    (hsize : (s.inode inum).size.toNat ≤ MAXFILE * BLOCK_SIZE) (hbuf : buf.length < MAXFILE * BLOCK_SIZE)
    (h : Owns s (s.inode inum) (blocksNum (s.inode inum).size.toNat) keep others)
    (hkeep : NDIRECT < blocksNum buf.length → keep) (hothers : ∀ b, others b → s.usingBlocks b = true)
    (hexhausted : s.exhausted = false) :
    (∃ s', writeFile junk now inum buf s = .ok () s' ∧ Written s s' inum buf keep others) ∨
      Lost (writeFile junk now inum buf s) := by
  rw [writeFile]
  simp only [if_neg (not_le.mpr hbuf)]
  rw [bind_ok (getInode_run hinum)]
  dsimp only
  rcases h.resize junk (blocksNum_le hsize) (blocksNum_le hbuf.le) hkeep hothers hexhausted with
    ⟨ino₁, s₁, hrun, hresized⟩ | hlost
  · obtain ⟨s₂, hdata, hpatch⟩ := hresized.owns.writeData junk buf hbuf.le
    rw [bind_ok hrun, bind_ok hdata, putInode_run hinum]
    exact .inl ⟨_, rfl, hresized.written hinum hpatch rfl rfl (toNat_ofNat_size hbuf.le)⟩
  · exact .inr (hlost.bind fun ino' => (writeData_sticky junk ino' buf).bind fun _ => putInode_sticky _ _)

end WriteFile

end CseLabs.InodeManager
