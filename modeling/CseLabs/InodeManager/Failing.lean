import CseLabs.InodeManager.Theorems
import CseLabs.InodeManager.Whole

namespace CseLabs.InodeManager

section Clash

-- A block that no table entry can be read from: every word of it is out of range.
def Unreadable (b : Data) : Prop := ∀ i < NINDIRECT, BLOCK_NUM ≤ (b.word i).toNat

variable {s s₁ : Fs} {ino : Inode} {junk : Stack} {content : Nat → Data}

theorem unreadable_of_bytes {b : Data} (h : ∀ p < BLOCK_SIZE, b.byte p ≠ 0) : Unreadable b := by
  obtain ⟨hblock, -, -, hindirect⟩ := file_sizes
  intro i hi
  have hne := h (4 * i + 3) (by omega)
  have hpos : 0 < (b.byte (4 * i + 3)).toNat := Nat.pos_of_ne_zero fun hzero => hne (UInt8.toNat_inj.mp hzero)
  have hle := b.le_word i
  rw [disk_sizes.1]
  omega

-- Once the block of the table holds data no id of it is in range, and it stays that way.
theorem writeEach_unreadable {i count : Nat} (hind : ino.indirect ≠ 0 ∧ ino.indirect.toNat < BLOCK_NUM)
    (hmax : i + count ≤ MAXFILE) (hcontent : ∀ k < i + count, Unreadable (content k))
    (h : Unreadable (s.blocks ino.indirect.toNat)) :
    ∃ s', writeEach junk ino content i count s = .ok () s' ∧ Unreadable (s'.blocks ino.indirect.toNat) := by
  induction count generalizing s i with
  | zero => exact ⟨s, rfl, h⟩
  | succ count ih =>
      obtain ⟨s₁, hwrite, hover⟩ := overwritten_writeBlock s ino i content
      have hkeep : Unreadable (s₁.blocks ino.indirect.toNat) := by
        by_cases hid : s.blockid ino i = ino.indirect.toNat
        · have hlast := hover.last i le_rfl (by omega) (hid ▸ hind.2) fun j hlo hhi => by omega
          rw [← hid, hlast]
          exact hcontent i (by omega)
        · rw [hover.outside]
          · exact h
          · intro k hlo hhi
            obtain rfl : k = i := by omega
            exact hid
      obtain ⟨s', hrest, h'⟩ := ih (show i + 1 + count ≤ MAXFILE by omega)
        (fun k hk => hcontent k (by omega)) hkeep
      refine ⟨s', ?_, h'⟩
      rw [writeEach, bind_ok (getNthBlockid_run (by omega) fun _ => hind), bind_ok hwrite]
      exact hrest

-- A file one of whose blocks is its table: the first write there makes the table unreadable.
theorem writeEach_clash {n : Nat} (hind : ino.indirect ≠ 0 ∧ ino.indirect.toNat < BLOCK_NUM) (hmax : n ≤ MAXFILE)
    (hcontent : ∀ k < n, Unreadable (content k)) (hclash : ∃ k, k < n ∧ s.blockid ino k = ino.indirect.toNat) :
    ∃ s', writeEach junk ino content 0 n s = .ok () s' ∧ Unreadable (s'.blocks ino.indirect.toNat) := by
  obtain ⟨k, ⟨hk, hid⟩, hbefore⟩ : ∃ k, (k < n ∧ s.blockid ino k = ino.indirect.toNat) ∧
      ∀ j < k, s.blockid ino j ≠ ino.indirect.toNat :=
    ⟨Nat.find hclash, Nat.find_spec hclash, fun j hj heq =>
      Nat.find_min hclash hj ⟨hj.trans (Nat.find_spec hclash).1, heq⟩⟩
  have htable : TableApart s ino k := fun _ => ⟨hind, hbefore⟩
  obtain ⟨s₁, hfirst, hover⟩ := htable.writeEach junk content (show k ≤ MAXFILE by omega) (Nat.zero_add k).le
  have hsame : s₁.blocks ino.indirect.toNat = s.blocks ino.indirect.toNat :=
    hover.outside _ fun j _ hj => hbefore j (by omega)
  have hid₁ : s₁.blockid ino k = ino.indirect.toNat := (blockid_congr rfl fun _ => hsame).trans hid
  obtain ⟨s₂, hwrite, hover₂⟩ := overwritten_writeBlock s₁ ino k content
  have hlast := hover₂.last k le_rfl (by omega) (by rw [hid₁]; exact hind.2) fun j hlo hhi => by omega
  rw [hid₁] at hlast
  obtain ⟨s', hrest, h'⟩ := writeEach_unreadable hind (show k + 1 + (n - k - 1) ≤ MAXFILE by omega)
    (fun j hj => hcontent j (by omega)) (by rw [hlast]; exact hcontent k hk)
  have hsplit : n = k + (n - k - 1 + 1) := by omega
  refine ⟨s', ?_, h'⟩
  rw [hsplit, writeEach_add, bind_ok hfirst, Nat.zero_add, writeEach,
    bind_ok (getNthBlockid_run (by omega) fun _ => hind), bind_ok hwrite]
  exact hrest

-- A block id out of range: read_file gives the block before it once more.
theorem readOut_repeats {stack : Stack} {k : Nat} (hid : BLOCK_NUM ≤ s.blockid ino (k + 1))
    (hsize : (k + 1) * BLOCK_SIZE < ino.size.toNat) :
    (s.readOut ino stack)[(k + 1) * BLOCK_SIZE]? = (s.readOut ino stack)[k * BLOCK_SIZE]? := by
  have hpos : 0 < BLOCK_SIZE := by decide
  have hlt : k * BLOCK_SIZE < ino.size.toNat := (Nat.mul_le_mul_right _ (Nat.le_succ k)).trans_lt hsize
  rw [getElem?_readOut hsize, getElem?_readOut hlt, Nat.mul_div_cancel _ hpos, Nat.mul_div_cancel _ hpos,
    Nat.mul_mod_left, Nat.mul_mod_left, Fs.readBuf, if_neg (not_lt.mpr hid)]

-- Bytes none of which is 0, with a difference between the last direct block and the next.
theorem exists_marked {len : Nat} (hlen : NDIRECT * BLOCK_SIZE < len) : ∃ buf : Bytes, buf.length = len ∧
    (∀ b ∈ buf, b ≠ 0) ∧ buf[NDIRECT * BLOCK_SIZE]? ≠ buf[(NDIRECT - 1) * BLOCK_SIZE]? := by
  refine ⟨List.replicate (NDIRECT * BLOCK_SIZE) 1 ++ List.replicate (len - NDIRECT * BLOCK_SIZE) 2, ?_, ?_, ?_⟩
  · rw [List.length_append, List.length_replicate, List.length_replicate]
    omega
  · intro b hb
    rcases List.mem_append.mp hb with hb | hb <;> rw [List.eq_of_mem_replicate hb] <;> decide
  · have hlt : (NDIRECT - 1) * BLOCK_SIZE < NDIRECT * BLOCK_SIZE := by decide
    rw [List.getElem?_append_right (by rw [List.length_replicate]), List.length_replicate, Nat.sub_self,
      List.getElem?_append_left (by rwa [List.length_replicate]), List.getElem?_replicate, if_pos (by omega),
      List.getElem?_replicate, if_pos hlt]
    decide

theorem byte_fileBlock_ne_zero {buf : Bytes} {k p : Nat} (hbuf : ∀ b ∈ buf, b ≠ 0) (hjunk : ∀ p, junk.file p ≠ 0)
    (hk : k < blocksNum buf.length) (hp : p < BLOCK_SIZE) : (fileBlock junk buf k).byte p ≠ 0 := by
  obtain ⟨hblock, -⟩ := file_sizes
  have hget : ∀ q, q < buf.length → buf.getD q 0 ≠ 0 := by
    intro q hq
    rw [List.getD_eq_getElem _ _ hq]
    exact hbuf _ (List.getElem_mem hq)
  have hlt := lt_blocksNum_iff.mp hk
  have hfull : k < buf.length / BLOCK_SIZE → k * BLOCK_SIZE + p < buf.length := by
    have hp' := hp
    rw [hblock] at hp' ⊢
    omega
  have hrest : ¬ k < buf.length / BLOCK_SIZE → p < buf.length % BLOCK_SIZE → k * BLOCK_SIZE + p < buf.length := by
    rw [hblock] at hlt ⊢
    omega
  rw [Block.byte_of_lt _ hp, fileBlock]
  split
  · next hin => exact hget _ (hfull hin)
  · next hin =>
      rw [lastChunk]
      split
      · next hrem => exact hget _ (hrest hin hrem)
      · exact hjunk _

theorem readFile_unreadable {inum : Nat} {buf : Bytes} {ino₁ ino' : Inode} {stack : Stack} {out : Bytes}
    (hinum : inum < INODE_NUM) (hblocks : ino'.blocks = ino₁.blocks) (hsize : ino'.size.toNat = buf.length)
    (hbuf : buf.length < MAXFILE * BLOCK_SIZE) (hn' : NDIRECT < blocksNum buf.length) (hind : ino₁.indirect ≠ 0)
    (hlow : FILEBLOCK ≤ ino₁.indirect.toNat) (hhigh : ino₁.indirect.toNat < BLOCK_NUM)
    (h : Unreadable (s.blocks ino₁.indirect.toNat))
    (hout : readFile stack inum (s.setInode inum ino') = .ok (some out) (s.setInode inum ino')) :
    out[NDIRECT * BLOCK_SIZE]? = out[(NDIRECT - 1) * BLOCK_SIZE]? := by
  have hind' : ino'.indirect = ino₁.indirect := congrFun hblocks _
  rw [readFile_out stack hinum (inode_setInode_self inum ino') (by rw [hsize]; exact hbuf.le)
    fun _ => by rw [hind']; exact ⟨hind, hhigh⟩] at hout
  cases hout
  refine readOut_repeats (k := NDIRECT - 1) ?_ (by rw [hsize]; exact lt_blocksNum_iff.mp hn')
  rw [Fs.blockid, dif_neg (by decide), hind', setInode_blocks_of_le hinum hlow]
  exact h _ (by decide)

theorem writeFile_clash (now : Times) {inum : Nat} {buf : Bytes} {ino₁ : Inode} (hinum : inum < INODE_NUM)
    (hbuf : buf.length < MAXFILE * BLOCK_SIZE) (hn' : NDIRECT < blocksNum buf.length)
    (hresize : resize junk (s.inode inum) (s.nblocks inum) (blocksNum buf.length) s = .ok ino₁ s₁)
    (hind : ino₁.indirect ≠ 0) (hlow : FILEBLOCK ≤ ino₁.indirect.toNat) (hhigh : ino₁.indirect.toNat < BLOCK_NUM)
    (hbytes : ∀ b ∈ buf, b ≠ 0) (hjunk : ∀ p, junk.file p ≠ 0)
    (hclash : ∃ k, k < blocksNum buf.length ∧ s₁.blockid ino₁ k = ino₁.indirect.toNat) :
    ∃ s', writeFile junk now inum buf s = .ok () s' ∧ ∀ stack out, readFile stack inum s' = .ok (some out) s' →
      out[NDIRECT * BLOCK_SIZE]? = out[(NDIRECT - 1) * BLOCK_SIZE]? := by
  obtain ⟨s₂, hdata, hunreadable⟩ := writeEach_clash (s := s₁) ⟨hind, hhigh⟩ (blocksNum_le hbuf.le)
    (fun k hk => unreadable_of_bytes fun p => byte_fileBlock_ne_zero hbytes hjunk hk) hclash
  rw [← writeData_eq] at hdata
  rw [writeFile_resize hinum hbuf hresize, bind_ok hdata, putInode_run hinum]
  exact ⟨_, rfl, fun stack out =>
    readFile_unreadable hinum rfl (toNat_ofNat_size hbuf.le) hbuf hn' hind hlow hhigh hunreadable⟩

theorem Sound.stale_table_apart {inum len : Nat} (h : Sound s) (hinum : inum < INODE_NUM)
    (hlen : len < MAXFILE * BLOCK_SIZE) (hwhole : ∀ junk now buf, buf.length = len → Whole junk now s inum buf)
    (hstale : s.Stale inum (blocksNum len)) :
    (∀ k < s.nblocks inum, s.blockid (s.inode inum) k ≠ (s.inode inum).indirect.toNat) ∧
      (s.inode inum).indirect.toNat ∉ s.freeBlocks.take (blocksNum len - s.nblocks inum) := by
  obtain ⟨buf, rfl, hbytes, hdiffer⟩ := exists_marked (lt_blocksNum_iff.mp hstale.2.1)
  obtain ⟨ino₁, s₁, hresize, hext | ⟨-, -, hzero, -⟩⟩ :=
    h.resize_extended hinum (hstale.1.trans_lt hstale.2.1) (blocksNum_le hlen.le)
      { Stack.zero with file := fun _ => 1 }
  · refine (h.stale_apart hinum hext hstale).mp ?_
    by_contra hclash
    obtain ⟨hlow, hhigh⟩ := h.table_low hinum hext hstale.2.1
    have hino := ((h.tabled_of_extended hinum hext).stale hstale).1
    rw [← hino] at hclash
    obtain ⟨s', hrun, hout⟩ := writeFile_clash ⟨0, 0, 0⟩ hinum hlen hstale.2.1 hresize
      (hext.table hstale.2.1).1 hlow hhigh hbytes (fun _ => show (1 : UInt8) ≠ 0 by decide) (by simpa using hclash)
    obtain ⟨s'', hrun', hread, -⟩ := hwhole { Stack.zero with file := fun _ => 1 } ⟨0, 0, 0⟩ buf rfl
    rw [hrun] at hrun'
    cases hrun'
    exact hdiffer (hout _ _ hread)
  · exact absurd hzero hstale.2.2

end Clash

section Necessary

variable {s s₁ : Fs} {ino₁ : Inode} {inum len : Nat} {junk : Stack}

theorem fits_size (hwhole : ∀ junk now buf, buf.length = len → Whole junk now s inum buf) :
    len < MAXFILE * BLOCK_SIZE := by
  by_contra hge
  obtain ⟨s', hrun, -⟩ := hwhole .zero ⟨0, 0, 0⟩ (List.replicate len 0) List.length_replicate
  rw [writeFile, if_pos (by rw [List.length_replicate]; exact not_lt.mp hge)] at hrun
  cases hrun

-- get_nth_blockid asserts that a file past its direct blocks has an indirect block.
theorem writeEach_noTable {content : Nat → Data} {n : Nat} (hn : NDIRECT < n) (hind : ino₁.indirect = 0) :
    ∃ s', writeEach junk ino₁ content 0 n s = .error .assertion s' := by
  have htable : TableApart s ino₁ NDIRECT := fun hlt => absurd hlt (lt_irrefl _)
  obtain ⟨s', hfirst, -⟩ := htable.writeEach junk content (by decide) (Nat.zero_add NDIRECT).le
  have hget : getNthBlockid junk ino₁ NDIRECT s' = .error .assertion s' := by
    simp only [getNthBlockid, lt_irrefl, dif_neg, not_false_iff, show NDIRECT < MAXFILE by decide, if_pos, hind]
    rfl
  have hsplit : n = NDIRECT + (n - NDIRECT - 1 + 1) := by omega
  refine ⟨s', ?_⟩
  rw [hsplit, writeEach_add, bind_ok hfirst, Nat.zero_add, writeEach, bind_error hget]

theorem Sound.table_of_whole (h : Sound s) (hinum : inum < INODE_NUM)
    (hwhole : ∀ junk now buf, buf.length = len → Whole junk now s inum buf)
    (hext : Extended s s₁ (s.inode inum) ino₁ (s.nblocks inum) (blocksNum len)) : TableApart s₁ ino₁ (blocksNum len) :=
  h.tableApart hinum hext fun hstale =>
    (h.stale_apart hinum hext hstale).mpr (h.stale_table_apart hinum (fits_size hwhole) hwhole hstale)

-- A file of equal bytes, none of which is c.
theorem exists_other (len : Nat) (c : UInt8) :
    ∃ buf : Bytes, buf.length = len ∧ ∀ junk k, k < blocksNum buf.length → (fileBlock junk buf k).byte 0 ≠ c := by
  refine ⟨List.replicate len (c + 1), List.length_replicate, fun junk k hk heq => ?_⟩
  have hlt := lt_blocksNum_iff.mp hk
  have hbyte := byte_fileBlock junk (List.replicate len (c + 1)) hlt
  rw [Nat.mul_div_cancel _ (by decide), Nat.mul_mod_left, heq, List.getElem_replicate] at hbyte
  have hval := congrArg UInt8.toNat hbyte
  rw [UInt8.toNat_add, UInt8.toNat_one] at hval
  omega

-- With too few free blocks the last block of the file is block 0 of the disk.
theorem Sound.fits_demand (h : Sound s) (hinum : inum < INODE_NUM)
    (hwhole : ∀ junk now buf, buf.length = len → Whole junk now s inum buf) :
    s.demand inum (blocksNum len) ≤ s.freeBlocks.length := by
  by_contra hfew
  have hlen := fits_size hwhole
  have hn : s.nblocks inum < blocksNum len := by
    by_contra hle
    refine hfew ?_
    rw [Fs.demand, if_neg (by omega)]
    omega
  obtain ⟨buf, rfl, hother⟩ := exists_other len ((s.blocks 0).byte 0)
  obtain ⟨s', hrun, -, hkept⟩ := hwhole .zero ⟨0, 0, 0⟩ buf rfl
  obtain ⟨ino₁, s₁, hresize, hext | ⟨hn', hind, -⟩⟩ :=
    h.resize_extended hinum hn (blocksNum_le hlen.le) .zero
  · have hturn := h.turn_last hinum hn
    have hlast : s₁.blockid ino₁ (blocksNum buf.length - 1) = 0 := by
      rw [hext.data _ (by omega), if_neg (by omega), given_eq]
      exact supply_eq_zero (by omega)
    obtain ⟨s'', hrun', hafter⟩ := writeFile_after _ hinum hlen hresize (h.table_of_whole hinum hwhole hext)
      fun hn' => (h.table_low hinum hext hn').1
    rw [hrun] at hrun'
    cases hrun'
    have hzero : 0 ≠ IBLOCK inum BLOCK_NUM := by
      rw [iblock_eq]
      omega
    have hblock := hafter.last (blocksNum buf.length - 1) (by omega) (by rwa [hlast]) (by rw [hlast]; decide)
      fun j hlo hhi => by omega
    rw [hlast, hkept.blocks 0 (by decide) hzero] at hblock
    exact hother _ _ (show blocksNum buf.length - 1 < _ by omega) (by rw [← hblock])
  · obtain ⟨s'', hdata⟩ := writeEach_noTable (s := s₁) hn' hind
    rw [writeFile_resize hinum hlen hresize, writeData_eq, bind_error hdata] at hrun
    cases hrun

-- A table that two files share: the other file's block NDIRECT becomes this file's.
theorem Sound.shared_table {j : Nat} {s' : Fs} {buf : Bytes} (h : Sound s) (hinum : inum < INODE_NUM)
    (hp : Placed s s₁ ino₁ inum (blocksNum buf.length)) (hafter : After s₁ s' ino₁ inum junk buf)
    (hn' : NDIRECT < blocksNum buf.length) (hj : j < INODE_NUM) (hne : j ≠ inum) (hlt : NDIRECT < s.nblocks j)
    (hshared : (s.inode j).indirect = ino₁.indirect) (stack : Stack) :
    ∃ out, InodeManager.readFile stack j s' = .ok (some out) s' ∧
      out[NDIRECT * BLOCK_SIZE]? = some ((fileBlock junk buf NDIRECT).byte 0) := by
  have hinode := hp.inode_other hafter hj hne
  have hiblock := iblock_lt_fileblock hinum
  have htable : s'.blocks ino₁.indirect.toNat = s₁.blocks ino₁.indirect.toNat := by
    have hlow := hp.tableLow hn'
    exact hafter.outside _ (by omega) (hp.table hn').2
  have hid : s'.blockid (s.inode j) NDIRECT = s₁.blockid ino₁ NDIRECT := by
    simp only [Fs.blockid, lt_irrefl, dif_neg, not_false_iff, hshared, htable]
  have hhigh := hp.high NDIRECT hn'
  refine ⟨_, readFile_out stack hj hinode (h.size hj).le fun _ => ((h.owns hj).tableApart hlt).1, ?_⟩
  rw [getElem?_readOut (lt_blocksNum_iff.mp hlt), Nat.mul_div_cancel _ (by decide), Nat.mul_mod_left,
    readBuf_of_lt (by rw [hid]; exact hhigh), hid, hp.last hinum hafter hn']

theorem Sound.fits_spare (h : Sound s) (hinum : inum < INODE_NUM)
    (hwhole : ∀ junk now buf, buf.length = len → Whole junk now s inum buf) (hstale : s.Stale inum (blocksNum len)) :
    s.Spare inum (blocksNum len) := by
  have hlen := fits_size hwhole
  have hn' := hstale.2.1
  obtain ⟨hown, hgiven⟩ := h.stale_table_apart hinum hlen hwhole hstale
  obtain ⟨ino₁, s₁, hresize, hext | ⟨-, -, hzero, -⟩⟩ :=
    h.resize_extended hinum (hstale.1.trans_lt hn') (blocksNum_le hlen.le) .zero
  · have hp := h.placed_of_extended hinum hext (h.fits_demand hinum hwhole) (h.table_of_whole hinum hwhole hext)
    have ht := h.tabled_of_extended hinum hext
    have hino := (ht.stale hstale).1
    -- what the files read as after a write of given bytes
    have hwrite : ∀ buf : Bytes, buf.length = len → ∃ s', After s₁ s' ino₁ inum .zero buf ∧ OthersKept s s' inum := by
      rintro buf rfl
      obtain ⟨s', hrun, -, hkept⟩ := hwhole .zero ⟨0, 0, 0⟩ buf rfl
      obtain ⟨s'', hrun', hafter⟩ := writeFile_after _ hinum hlen hresize hp.table hp.tableLow
      rw [hrun] at hrun'
      cases hrun'
      exact ⟨s', hafter, hkept⟩
    have htables : ∀ j < INODE_NUM, j ≠ inum → NDIRECT < s.nblocks j → (s.inode j).indirect ≠ (s.inode inum).indirect := by
      intro j hj hne hlt hshared
      obtain ⟨buf, rfl, hother⟩ := exists_other len ((s.content (s.inode j)).getD (NDIRECT * BLOCK_SIZE) 0)
      obtain ⟨s', hafter, hkept⟩ := hwrite buf rfl
      obtain ⟨out, hout, hbyte⟩ := h.shared_table hinum hp hafter hn' hj hne hlt (hshared.trans hino.symm) .zero
      rw [hkept.files j hj hne _ _ (h.readFile hj _)] at hout
      cases hout
      refine hother .zero _ hn' ?_
      rw [List.getD_eq_getElem?_getD, hbyte, Option.getD_some]
    refine ⟨hown, hgiven, htables, fun j hj hne => ?_⟩
    obtain ⟨s', hafter, hkept⟩ := hwrite (List.replicate len 0) List.length_replicate
    have hbefore := hkept.files j hj hne .zero _ (h.readFile hj _)
    have hlength : (List.replicate len (0 : UInt8)).length = len := List.length_replicate
    rw [← hlength] at hp
    rw [hp.readFile_other h hinum hafter hj hne fun hlt _ => by rw [hino]; exact htables j hj hne hlt] at hbefore
    rw [hlength] at hp
    have hcontent : s₁.content (s.inode j) = s.content (s.inode j) :=
      Option.some.inj (EStateM.Result.ok.inj hbefore).1
    rw [← hcontent]
    exact content_of_blocks fun slot _ => by rw [ht.blocks hp hstale]
  · exact absurd hzero hstale.2.2

-- Whether every file of a length can be stored whole depends on the room the store has for it.
theorem whole_iff_fits (h : Sound s) (hinum : inum < INODE_NUM) :
    (∀ junk now buf, buf.length = len → Whole junk now s inum buf) ↔ s.Fits inum len := by
  constructor
  · intro hwhole
    exact ⟨fits_size hwhole, h.fits_demand hinum hwhole, h.fits_spare hinum hwhole⟩
  · rintro hfits junk now buf rfl
    exact hfits.whole h hinum

end Necessary

section Runs

variable {s s' : Fs} {inum : Nat}

-- An inode is emptied, or given out.
theorem Sound.fresh {type : UInt16} (h : Sound s) (hseparated : Separated False s')
    (hself : s'.inode inum = (s.inode inum).fresh type) (hother : ∀ j ≠ inum, s'.inode j = s.inode j) : Sound s' := by
  refine ⟨fun j hj => hseparated.owns j ⟨hj.1, .inr hj.2⟩, fun j hj => hseparated.size j ⟨hj.1, .inr hj.2⟩,
    fun j hj htype => ?_, fun j hj hind => ?_⟩
  · by_cases he : j = inum
    · rw [he, hself]
      rfl
    · rw [hother j he] at htype ⊢
      exact h.unused j hj htype
  · by_cases he : j = inum
    · subst j
      rw [hself] at hind ⊢
      exact h.indirect inum hj hind
    · rw [hother j he] at hind ⊢
      exact h.indirect j hj hind

-- A file that stays within its direct blocks keeps what is in blocks[NDIRECT].
theorem Sound.writeFile_indirect {junk : Stack} {now : Times} {buf : Bytes} (h : Sound s) (hinum : inum < INODE_NUM)
    (hbuf : buf.length < MAXFILE * BLOCK_SIZE) (hn' : blocksNum buf.length ≤ NDIRECT)
    (hrun : writeFile junk now inum buf s = .ok () s') : (s'.inode inum).indirect = (s.inode inum).indirect := by
  obtain ⟨ino₁, s₁, hresize, hind⟩ : ∃ ino₁ s₁,
      resize junk (s.inode inum) (s.nblocks inum) (blocksNum buf.length) s = .ok ino₁ s₁ ∧
        ino₁.indirect = (s.inode inum).indirect := by
    by_cases hn : s.nblocks inum < blocksNum buf.length
    · obtain ⟨ino₁, s₁, hresize, hext | ⟨hlt, -⟩⟩ := h.resize_extended hinum hn (blocksNum_le hbuf.le) junk
      · exact ⟨ino₁, s₁, hresize, hext.keeps hn'⟩
      · omega
    · obtain ⟨s₁, hresize, -⟩ := h.resize_freed hinum (not_lt.mp hn) junk
      exact ⟨_, s₁, hresize, rfl⟩
  obtain ⟨s'', hrun', hafter⟩ := writeFile_after _ hinum hbuf hresize (fun hlt => by omega) fun hlt => by omega
  rw [hrun] at hrun'
  cases hrun'
  rw [hafter.indirect, hind]

theorem Sound.writeFile {junk : Stack} {now : Times} {buf : Bytes} (h : Sound s) (hseparated : Separated False s)
    (hlegal : Legal s (.writeFile junk now inum buf)) (hfresh : FreshIndirect s (.writeFile junk now inum buf))
    (hstep : Step s (.writeFile junk now inum buf) s') : Sound s' := by
  have hseparated' := step_owned hseparated hlegal hfresh hstep
  obtain ⟨hlive, hbuf⟩ := hlegal
  rcases hseparated.writeFile junk now ⟨hlive.1, .inr hlive.2⟩ hbuf fun _ => indirectOk_of_fresh hfresh with
    ⟨s₁, keep, hrun, -, hwritten⟩ | hlost
  · obtain rfl : s₁ = s' := (EStateM.Result.ok.inj (hrun.symm.trans (step_iff.mp hstep).1)).2
    refine ⟨fun j hj => hseparated'.owns j ⟨hj.1, .inr hj.2⟩, fun j hj => hseparated'.size j ⟨hj.1, .inr hj.2⟩,
      fun j hj htype => ?_, fun j hj hind => ?_⟩
    · by_cases he : j = inum
      · subst j
        rw [hwritten.type] at htype
        exact absurd htype hlive.2
      · rw [(hwritten.untouched hseparated hlive.1 he hj).inode] at htype ⊢
        exact h.unused j hj htype
    · by_cases he : j = inum
      · subst j
        by_cases hn' : NDIRECT < blocksNum buf.length
        · have hmine := hwritten.owns.mine .indirect (.indirect_of_lt hn')
          exact ⟨hmine.low, hmine.high⟩
        · rw [h.writeFile_indirect hj hbuf (not_lt.mp hn') hrun] at hind ⊢
          exact h.indirect inum hj hind
      · rw [(hwritten.untouched hseparated hlive.1 he hj).inode] at hind ⊢
        exact h.indirect j hj hind
  · exact absurd hlost (not_lost_of_step hstep)

theorem Sound.step {event : Event} (h : Sound s) (hseparated : Separated False s) (hlegal : Legal s event)
    (hfresh : FreshIndirect s event) (hstep : Step s event s') : Sound s' := by
  have hseparated' := step_owned hseparated hlegal hfresh hstep
  have hrun := (step_iff.mp hstep).1
  cases event with
  | allocInode type =>
      rw [Event.run] at hrun
      rcases allocInode_cases type s with ⟨k, -, hk, -, -, halloc⟩ | ⟨-, halloc⟩
      · rw [bind_ok halloc] at hrun
        cases hrun
        exact h.fresh hseparated' (inode_setInode_self k _) fun j hj => inode_setInode_of_ne hj
      · rw [bind_error halloc] at hrun
        cases hrun
  | writeFile junk now inum buf => exact h.writeFile hseparated hlegal hfresh hstep
  | removeFile junk inum =>
      obtain ⟨s₁, hremove, hblocks, -⟩ := hseparated.removeFile_run junk hlegal
      rw [Event.run, hremove] at hrun
      cases hrun
      refine h.fresh hseparated' (inode_setInode_self inum _) fun j hj => ?_
      rw [inode_setInode_of_ne hj]
      exact inode_congr (by rw [hblocks])

theorem sound_of_blank (h : ∀ inum, (s.inode inum).size = 0 ∧ (s.inode inum).indirect = 0) : Sound s := by
  have hempty : ∀ inum slot, ¬ Uses (s.inode inum) (s.nblocks inum) False slot :=
    fun inum => not_uses_of_empty (h inum).1 False.elim
  refine ⟨fun j _ => ⟨fun slot hu => absurd hu (hempty j slot), fun a b ha => absurd ha (hempty j a)⟩, fun j _ => ?_,
    fun j _ _ => (h j).1, fun j _ hind => absurd (h j).2 hind⟩
  rw [(h j).1]
  decide

theorem initial_blank (hinit : Initial s) (inum : Nat) : (s.inode inum).size = 0 ∧ (s.inode inum).indirect = 0 := by
  obtain ⟨memory, k, -, rfl⟩ := hinit.start
  by_cases he : inum = k
  · rw [he, inode_setInode_self, inode_format]
    exact ⟨rfl, by decide +kernel⟩
  · rw [inode_setInode_of_ne he, inode_format]
    constructor <;> decide +kernel

-- The states that calls on files in use lead to, as long as the blocks of the files stay apart.
theorem reachable_sound
    (hr : Reachable (Guarded (fun s event => Legal s event ∧ FreshIndirect s event) Step) Initial s) : Sound s :=
  (hr.invariant (fun s => Sound s ∧ Separated False s)
    (fun _ hinit => ⟨sound_of_blank (initial_blank hinit), initial_separated hinit⟩)
    fun _ _ _ h hstep => ⟨h.1.step h.2 hstep.1.1 hstep.1.2 hstep.2, step_owned h.2 hstep.1.1 hstep.1.2 hstep.2⟩).1

end Runs

end CseLabs.InodeManager
