import CseLabs.InodeManager.Store
import Mathlib.Data.List.GetD
import Mathlib.Data.List.Nodup

namespace CseLabs.InodeManager

section FreeBlocks

-- The free blocks of the file area, in the order alloc_block hands them out.
def Fs.freeBlocks (s : Fs) : List Nat :=
  (List.range' FILEBLOCK (BLOCK_NUM - FILEBLOCK)).filter fun b => !s.usingBlocks b

variable {s : Fs}

theorem mem_freeBlocks {b : Nat} :
    b ∈ s.freeBlocks ↔ FILEBLOCK ≤ b ∧ b < BLOCK_NUM ∧ s.usingBlocks b = false := by
  have hle : FILEBLOCK ≤ BLOCK_NUM := by decide
  rw [Fs.freeBlocks, List.mem_filter, List.mem_range'_1, Nat.add_sub_cancel' hle, Bool.not_eq_true', and_assoc]

theorem nodup_freeBlocks (s : Fs) : s.freeBlocks.Nodup :=
  (List.nodup_range' ..).filter _

-- What the k-th call of alloc_block returns, counted from 0.
def Fs.supply (s : Fs) (k : Nat) : Nat := s.freeBlocks.getD k 0

theorem supply_mem {k : Nat} (h : k < s.freeBlocks.length) : s.supply k ∈ s.freeBlocks := by
  rw [Fs.supply, List.getD_eq_getElem _ _ h]
  exact List.getElem_mem h

theorem supply_eq_zero {k : Nat} (h : s.freeBlocks.length ≤ k) : s.supply k = 0 :=
  List.getD_eq_default _ _ h

theorem supply_lt (s : Fs) (k : Nat) : s.supply k < BLOCK_NUM := by
  by_cases h : k < s.freeBlocks.length
  · exact (mem_freeBlocks.mp (supply_mem h)).2.1
  · rw [supply_eq_zero (not_lt.mp h)]
    decide

theorem supply_inj {j k : Nat} (hne : s.supply j ≠ 0) (h : s.supply j = s.supply k) : j = k := by
  have hj : j < s.freeBlocks.length := not_le.mp fun hle => hne (supply_eq_zero hle)
  have hk : k < s.freeBlocks.length := not_le.mp fun hle => hne (h.trans (supply_eq_zero hle))
  rw [Fs.supply, Fs.supply, List.getD_eq_getElem _ _ hj, List.getD_eq_getElem _ _ hk] at h
  exact (nodup_freeBlocks s).getElem_inj_iff.mp h

theorem freeBlocks_mark {id : Nat} {rest : List Nat} (h : s.freeBlocks = id :: rest) :
    (s.mark id true).freeBlocks = rest := by
  have hnodup := nodup_freeBlocks s
  rw [h, List.nodup_cons] at hnodup
  have hfilter : (s.mark id true).freeBlocks = s.freeBlocks.filter fun b => !decide (b = id) := by
    rw [Fs.freeBlocks, Fs.freeBlocks, List.filter_filter]
    refine List.filter_congr fun b _ => ?_
    show (!Function.update s.usingBlocks id true b) = _
    by_cases he : b = id
    · simp [he]
    · simp [he]
  rw [hfilter, h, List.filter_cons_of_neg (by simp), List.filter_eq_self]
  intro b hb
  have hne : b ≠ id := fun heq => hnodup.1 (heq ▸ hb)
  simpa using hne

theorem allocBlock_supply (s : Fs) :
    ∃ s', allocBlock s = .ok (s.supply 0) s' ∧ s'.blocks = s.blocks ∧ s'.freeBlocks = s.freeBlocks.tail := by
  have hfirst : firstFree s.usingBlocks = s.freeBlocks.head? := List.head?_filter.symm
  rw [allocBlock_eq, hfirst, Fs.supply]
  cases hfree : s.freeBlocks with
  | nil => exact ⟨_, rfl, rfl, hfree⟩
  | cons id rest => exact ⟨_, rfl, rfl, freeBlocks_mark hfree⟩

theorem supply_of_drop {s' : Fs} {m : Nat} (h : s'.freeBlocks = s.freeBlocks.drop m) (k : Nat) :
    s'.supply k = s.supply (m + k) := by
  rw [Fs.supply, Fs.supply, h, List.getD_eq_getElem?_getD, List.getD_eq_getElem?_getD, List.getElem?_drop]

end FreeBlocks

section Growth

-- The table of block ids once blocks n to k - 1 of the file have theirs, the first of them the
-- first free block.
def Fs.tableWith (s : Fs) (ino : Inode) (n : Nat) : Nat → Data
  | 0 => s.blocks ino.indirect.toNat
  | k + 1 =>
      if n ≤ k ∧ NDIRECT ≤ k then (s.tableWith ino n k).setWord (k - NDIRECT) (UInt32.ofNat (s.supply (k - n)))
      else s.tableWith ino n k

-- Blocks n to n' - 1 have been allocated for a file, and no indirect block.
structure Supplied (s s' : Fs) (ino ino' : Inode) (n n' : Nat) : Prop where
  free : s'.freeBlocks = s.freeBlocks.drop (n' - n)
  direct : ∀ k < NDIRECT, s'.blockid ino' k = if n ≤ k ∧ k < n' then s.supply (k - n) else s.blockid ino k
  indirect : ino'.indirect = ino.indirect
  table : s'.blocks ino.indirect.toNat = s.tableWith ino n n'
  blocks : ∀ b ≠ ino.indirect.toNat, s'.blocks b = s.blocks b

variable {s s' : Fs} {ino ino' : Inode} {n n' : Nat} {junk : Stack}

theorem tableWith_of_le {k : Nat} (h : k ≤ n ∨ k ≤ NDIRECT) :
    s.tableWith ino n k = s.blocks ino.indirect.toNat := by
  induction k with
  | zero => rfl
  | succ k ih => rw [Fs.tableWith, if_neg (by omega), ih (by omega)]

theorem word_tableWith {i k : Nat} (hi : i < NINDIRECT) (hk : k ≤ MAXFILE) :
    (s.tableWith ino n k).word i =
      if n ≤ NDIRECT + i ∧ NDIRECT + i < k then UInt32.ofNat (s.supply (NDIRECT + i - n))
      else (s.blocks ino.indirect.toNat).word i := by
  obtain ⟨hblock, hdirect, hmax, hindirect⟩ := file_sizes
  induction k with
  | zero => rw [Fs.tableWith, if_neg (by omega)]
  | succ k ih =>
      rw [Fs.tableWith]
      by_cases hset : n ≤ k ∧ NDIRECT ≤ k
      · rw [if_pos hset, Block.word_setWord _ _ (by omega), ih (by omega)]
        by_cases he : i = k - NDIRECT
        · rw [if_pos he, if_pos (by omega), show NDIRECT + i - n = k - n by omega]
        · rw [if_neg he]
          exact if_congr (by omega) rfl rfl
      · rw [if_neg hset, ih (by omega)]
        exact if_congr (by omega) rfl rfl

theorem Supplied.refl (s : Fs) (ino : Inode) (n : Nat) : Supplied s s ino ino n n where
  free := by rw [Nat.sub_self, List.drop_zero]
  direct k _ := (if_neg (by omega)).symm
  indirect := rfl
  table := (tableWith_of_le (.inl le_rfl)).symm
  blocks _ _ := rfl

theorem Supplied.blockid {k : Nat} (h : Supplied s s' ino ino' n n') (hk : k < MAXFILE) (hn' : n' ≤ MAXFILE) :
    s'.blockid ino' k = if n ≤ k ∧ k < n' then s.supply (k - n) else s.blockid ino k := by
  obtain ⟨-, hdirect, hmax, hindirect⟩ := file_sizes
  by_cases hlt : k < NDIRECT
  · exact h.direct k hlt
  · have hadd : NDIRECT + (k - NDIRECT) = k := by omega
    simp only [Fs.blockid, hlt, dif_neg, not_false_iff, h.indirect, h.table]
    rw [word_tableWith (by omega) hn', hadd]
    split
    · exact toNat_ofNat_id (supply_lt s _)
    · rfl

theorem Supplied.next (junk : Stack) (h : Supplied s s' ino ino' n n') (hn : n ≤ n') (hmax : n' < MAXFILE)
    (hind : NDIRECT ≤ n' → ino.indirect ≠ 0 ∧ ino.indirect.toNat < BLOCK_NUM) :
    ∃ ino₁ s₁, allocNthBlock junk ino' n' s' = .ok ino₁ s₁ ∧ Supplied s s₁ ino ino₁ n (n' + 1) := by
  have hid : s'.supply 0 = s.supply (n' - n) := supply_of_drop h.free 0
  have hcount : n' + 1 - n = n' - n + 1 := by omega
  obtain ⟨s₁, halloc, hblocks, hfree⟩ := allocBlock_supply s'
  rw [h.free, List.tail_drop, ← hcount] at hfree
  by_cases hlt : n' < NDIRECT
  · simp only [allocNthBlock, hlt, dif_pos]
    rw [bind_ok halloc]
    refine ⟨_, _, rfl, hfree, fun k hk => ?_, ?_, ?_, fun b hb => ?_⟩
    · rw [blockid_setBlock_data _ _ hlt hk (supply_lt s' 0), hid]
      by_cases he : k = n'
      · rw [if_pos he, if_pos (by omega), he]
      · have hsame : s₁.blockid ino' k = s'.blockid ino' k := blockid_congr rfl fun _ => by rw [hblocks]
        rw [if_neg he, hsame, h.direct k hk]
        exact if_congr (by omega) rfl rfl
    · rw [indirect_setBlock_of_lt _ hlt, h.indirect]
    · rw [hblocks, h.table, Fs.tableWith, if_neg (by omega)]
    · rw [hblocks, h.blocks b hb]
  · obtain ⟨hne, hhigh⟩ := hind (by omega)
    rw [← h.indirect] at hne hhigh
    simp only [allocNthBlock, hlt, dif_neg, not_false_iff, hmax, if_pos, hne, if_neg]
    rw [allocEntry, bind_ok (readBlock_run hhigh), bind_ok halloc, bind_ok (writeBlock_run hhigh)]
    refine ⟨_, _, rfl, hfree, fun k hk => ?_, h.indirect, ?_, fun b hb => ?_⟩
    · rw [show (s₁.setBlock _ _).blockid ino' k = s'.blockid ino' k from ?_, h.direct k hk]
      · exact if_congr (by omega) rfl rfl
      · exact blockid_congr rfl fun hle => by omega
    · rw [h.indirect, h.table, hid, Fs.tableWith, if_pos (by omega)]
      exact Function.update_self ..
    · rw [h.indirect]
      exact (Function.update_of_ne hb ..).trans (by rw [hblocks, h.blocks b hb])

theorem Supplied.blocks_of_le (h : Supplied s s' ino ino' n n') (hn' : n' ≤ NDIRECT) : s'.blocks = s.blocks := by
  funext b
  by_cases hb : b = ino.indirect.toNat
  · rw [hb, h.table, tableWith_of_le (.inr hn')]
  · exact h.blocks b hb

theorem allocFrom_add (junk : Stack) (ino : Inode) (n a b : Nat) :
    allocFrom junk ino n (a + b) = allocFrom junk ino n a >>= fun ino => allocFrom junk ino (n + a) b := by
  induction a generalizing ino n with
  | zero => simp [allocFrom]
  | succ a ih =>
      rw [Nat.add_right_comm, allocFrom, funext fun ino => ih ino (n + 1), allocFrom, bind_assoc]
      simp only [Nat.add_assoc, Nat.add_comm 1 a]

-- A file that stays within its direct blocks, or has its indirect block already.
theorem allocFrom_supplied (junk : Stack) (s : Fs) (ino : Inode) {count : Nat} (hmax : n + count ≤ MAXFILE)
    (hind : NDIRECT < n + count → ino.indirect ≠ 0 ∧ ino.indirect.toNat < BLOCK_NUM) :
    ∃ ino' s', allocFrom junk ino n count s = .ok ino' s' ∧ Supplied s s' ino ino' n (n + count) := by
  induction count with
  | zero => exact ⟨ino, s, rfl, .refl s ino n⟩
  | succ count ih =>
      obtain ⟨ino₁, s₁, hrun, hsupplied⟩ := ih (by omega) fun hlt => hind (by omega)
      obtain ⟨ino', s', hlast, hsupplied'⟩ := hsupplied.next junk (by omega) (by omega) fun hle => hind (by omega)
      refine ⟨ino', s', ?_, hsupplied'⟩
      rw [allocFrom_add, bind_ok hrun, allocFrom, bind_ok hlast]
      rfl

-- What block k of a file of n blocks gets. An indirect block, if there is none yet, comes before
-- the first block past the direct ones.
def Fs.given (s : Fs) (ino : Inode) (n k : Nat) : Nat :=
  s.supply (if NDIRECT ≤ k ∧ ino.indirect = 0 then k + 1 - n else k - n)

-- A file of n blocks has become one of n' blocks.
structure Extended (s s' : Fs) (ino ino' : Inode) (n n' : Nat) : Prop where
  data : ∀ k < n', s'.blockid ino' k = if k < n then s.blockid ino k else s.given ino n k
  table : NDIRECT < n' → ino'.indirect ≠ 0 ∧
    ino'.indirect.toNat = if ino.indirect = 0 then s.supply (NDIRECT - n) else ino.indirect.toNat
  entries : ino.indirect ≠ 0 → s'.blocks ino.indirect.toNat = s.tableWith ino n n'
  keeps : n' ≤ NDIRECT → ino'.indirect = ino.indirect
  blocks : ∀ b, (NDIRECT < n' → b ≠ ino'.indirect.toNat) → s'.blocks b = s.blocks b

theorem Supplied.extended (h : Supplied s s' ino ino' n n') (hn' : n' ≤ MAXFILE)
    (hind : NDIRECT < n' → ino.indirect ≠ 0) : Extended s s' ino ino' n n' where
  data k hk := by
    have hgiven : s.given ino n k = s.supply (k - n) :=
      congrArg s.supply (if_neg fun hnew => hind (by omega) hnew.2)
    rw [h.blockid (by omega) hn', hgiven]
    by_cases hkn : k < n
    · rw [if_neg (by omega), if_pos hkn]
    · rw [if_pos (by omega), if_neg hkn]
  table hlt := by
    rw [h.indirect, if_neg (hind hlt)]
    exact ⟨hind hlt, rfl⟩
  entries _ := h.table
  keeps _ := h.indirect
  blocks b hb := by
    by_cases hlt : NDIRECT < n'
    · rw [h.indirect] at hb
      exact h.blocks b (hb hlt)
    · rw [h.blocks_of_le (not_lt.mp hlt)]

-- The first block past the direct ones takes two calls of alloc_block.
theorem allocFrom_newTable {id count : Nat} {s₁ : Fs} (hind : ino.indirect = 0)
    (halloc : allocBlock s = .ok id s₁) (hid : (ino.setBlock (Fin.last NDIRECT) id).indirect ≠ 0) :
    allocFrom junk ino NDIRECT (count + 1) s =
      allocFrom junk (ino.setBlock (Fin.last NDIRECT) id) NDIRECT (count + 1) s₁ := by
  have hfirst : allocNthBlock junk ino NDIRECT s =
      allocNthBlock junk (ino.setBlock (Fin.last NDIRECT) id) NDIRECT s₁ := by
    simp only [allocNthBlock, lt_irrefl, dif_neg, not_false_iff, show NDIRECT < MAXFILE by decide, if_pos, hind,
      if_neg hid]
    rw [bind_ok halloc]
  rw [allocFrom, allocFrom]
  show EStateM.bind _ _ s = EStateM.bind _ _ s₁
  rw [EStateM.bind, EStateM.bind, hfirst]

-- With no free block left the file stays without an indirect block.
theorem allocNthBlock_starved (junk : Stack) (hn : NDIRECT ≤ n) (hmax : n < MAXFILE) (hind : ino.indirect = 0)
    (hfree : s.freeBlocks = []) :
    ∃ ino' s', allocNthBlock junk ino n s = .ok ino' s' ∧ ino'.indirect = 0 ∧ s'.freeBlocks = [] := by
  obtain ⟨s₁, halloc₁, -, hfree₁⟩ := allocBlock_supply s
  obtain ⟨s₂, halloc₂, -, hfree₂⟩ := allocBlock_supply s₁
  rw [hfree] at hfree₁
  rw [supply_eq_zero (by rw [hfree]; exact le_rfl)] at halloc₁
  rw [hfree₁] at hfree₂
  have hlast : (ino.setBlock (Fin.last NDIRECT) 0).indirect = 0 :=
    UInt32.toNat_inj.mp (indirect_setBlock_last ino (by decide))
  have hhigh : (ino.setBlock (Fin.last NDIRECT) 0).indirect.toNat < BLOCK_NUM := by
    rw [hlast]
    decide
  simp only [allocNthBlock, not_lt.mpr hn, dif_neg, not_false_iff, hmax, if_pos, hind]
  rw [bind_ok halloc₁, allocEntry, bind_ok (readBlock_run hhigh), bind_ok halloc₂, bind_ok (writeBlock_run hhigh)]
  exact ⟨_, _, rfl, hlast, hfree₂⟩

theorem allocFrom_starved (junk : Stack) {count : Nat} (hn : NDIRECT ≤ n) (hmax : n + count ≤ MAXFILE)
    (hind : ino.indirect = 0) (hfree : s.freeBlocks = []) :
    ∃ ino' s', allocFrom junk ino n count s = .ok ino' s' ∧ ino'.indirect = 0 := by
  induction count generalizing ino n s with
  | zero => exact ⟨ino, s, rfl, hind⟩
  | succ count ih =>
      obtain ⟨ino₁, s₁, hrun, hind₁, hfree₁⟩ := allocNthBlock_starved junk hn (by omega) hind hfree
      rw [allocFrom, bind_ok hrun]
      exact ih (by omega) (by omega) hind₁ hfree₁

theorem Extended.newTable {ino₀ ino₁ : Inode} {s₀ s₁ : Fs} (hind : ino.indirect = 0) (hn : n ≤ NDIRECT)
    (hlt : NDIRECT < n') (hn' : n' ≤ MAXFILE) (h : Supplied s s₀ ino ino₀ n NDIRECT) (hblocks : s₁.blocks = s₀.blocks)
    (hfree : s₁.freeBlocks = s₀.freeBlocks.tail) (hino : ino₁ = ino₀.setBlock (Fin.last NDIRECT) (s₀.supply 0))
    (hne : ino₁.indirect ≠ 0) (h' : Supplied s₁ s' ino₁ ino' NDIRECT n') : Extended s s' ino ino' n n' := by
  have hid : s₀.supply 0 = s.supply (NDIRECT - n) := supply_of_drop h.free 0
  have htable : ino₁.indirect.toNat = s.supply (NDIRECT - n) := by
    rw [hino, indirect_setBlock_last _ (supply_lt s₀ 0), hid]
  rw [h.free, List.tail_drop] at hfree
  refine ⟨fun k hk => ?_, fun _ => ?_, fun hold => absurd hind hold, fun hle => by omega, fun b hb => ?_⟩
  · rw [h'.blockid (by omega) hn']
    by_cases hlt : k < NDIRECT
    · have hsame : s₁.blockid ino₁ k = s₀.blockid ino₀ k := by
        rw [hino, blockid_setBlock_last _ _ hlt]
        exact blockid_congr rfl fun _ => by rw [hblocks]
      have hgiven : s.given ino n k = s.supply (k - n) := congrArg s.supply (if_neg (by omega))
      rw [if_neg (by omega), hsame, h.direct k hlt, hgiven]
      by_cases hkn : k < n
      · rw [if_neg (by omega), if_pos hkn]
      · rw [if_pos (by omega), if_neg hkn]
    · have hgiven : s.given ino n k = s.supply (k + 1 - n) := congrArg s.supply (if_pos ⟨not_lt.mp hlt, hind⟩)
      rw [if_pos (by omega), if_neg (by omega), hgiven, supply_of_drop hfree]
      congr 1
      omega
  · rw [h'.indirect, if_pos hind]
    exact ⟨hne, htable⟩
  · have hne' : b ≠ ino₁.indirect.toNat := h'.indirect ▸ hb hlt
    rw [h'.blocks b hne', hblocks, h.blocks_of_le le_rfl]

-- The blocks a file gets when it grows. Only if there is no block for a table it needs is it left
-- without one.
theorem allocFrom_extended (junk : Stack) (s : Fs) (hn : n ≤ n') (hmax : n' ≤ MAXFILE)
    (hhigh : ino.indirect ≠ 0 → ino.indirect.toNat < BLOCK_NUM) (hold : NDIRECT < n → ino.indirect ≠ 0) :
    ∃ ino' s', allocFrom junk ino n (n' - n) s = .ok ino' s' ∧
      (Extended s s' ino ino' n n' ∨
        NDIRECT < n' ∧ ino'.indirect = 0 ∧ ino.indirect = 0 ∧ n ≤ NDIRECT ∧ s.freeBlocks.length ≤ NDIRECT - n) := by
  have hcount : n + (n' - n) = n' := by omega
  by_cases hsteady : NDIRECT < n' → ino.indirect ≠ 0
  · obtain ⟨ino', s', hrun, hsupplied⟩ := allocFrom_supplied junk s ino (show n + (n' - n) ≤ MAXFILE by omega)
      fun hlt => ⟨hsteady (by omega), hhigh (hsteady (by omega))⟩
    rw [hcount] at hsupplied
    exact ⟨ino', s', hrun, .inl (hsupplied.extended hmax hsteady)⟩
  · -- the direct blocks, then the rest
    obtain ⟨hlt, hzero⟩ := Classical.not_imp.mp hsteady
    have hind : ino.indirect = 0 := not_not.mp hzero
    have hle : n ≤ NDIRECT := not_lt.mp fun hgt => hold hgt hind
    obtain ⟨ino₀, s₀, hrun₀, hsupplied₀⟩ := allocFrom_supplied junk s ino
      (show n + (NDIRECT - n) ≤ MAXFILE by omega) fun hgt => by omega
    obtain ⟨count, hrest⟩ : ∃ count, n' - NDIRECT = count + 1 := ⟨n' - NDIRECT - 1, by omega⟩
    have hsplit : n' - n = NDIRECT - n + (n' - NDIRECT) := by omega
    rw [hsplit, allocFrom_add, bind_ok hrun₀, Nat.add_sub_cancel' hle]
    rw [Nat.add_sub_cancel' hle] at hsupplied₀
    by_cases hleft : NDIRECT - n < s.freeBlocks.length
    · obtain ⟨s₁, halloc, hblocks, hfree⟩ := allocBlock_supply s₀
      have hlast := indirect_setBlock_last ino₀ (supply_lt s₀ 0)
      have hnew : (ino₀.setBlock (Fin.last NDIRECT) (s₀.supply 0)).indirect ≠ 0 := by
        intro hno
        have hlow : FILEBLOCK ≤ s.supply (NDIRECT - n + 0) := (mem_freeBlocks.mp (supply_mem hleft)).1
        rw [← supply_of_drop hsupplied₀.free, ← hlast, hno] at hlow
        exact absurd hlow (by decide)
      obtain ⟨ino', s', hrun, hsupplied⟩ := allocFrom_supplied junk s₁ _
        (show NDIRECT + (n' - NDIRECT) ≤ MAXFILE by omega) fun _ => ⟨hnew, hlast.trans_lt (supply_lt s₀ 0)⟩
      rw [hrest, allocFrom_newTable (hsupplied₀.indirect.trans hind) halloc hnew, ← hrest]
      rw [Nat.add_sub_cancel' hlt.le] at hsupplied
      exact ⟨ino', s', hrun, .inl (.newTable hind hle hlt hmax hsupplied₀ hblocks hfree rfl hnew hsupplied)⟩
    · have hempty : s₀.freeBlocks = [] := by
        rw [hsupplied₀.free]
        exact List.drop_eq_nil_of_le (not_lt.mp hleft)
      obtain ⟨ino', s', hrun, hstarved⟩ := allocFrom_starved junk le_rfl
        (show NDIRECT + (n' - NDIRECT) ≤ MAXFILE by omega) (hsupplied₀.indirect.trans hind) hempty
      exact ⟨ino', s', hrun, .inr ⟨hlt, hstarved, hind, hle, not_lt.mp hleft⟩⟩

end Growth

end CseLabs.InodeManager
