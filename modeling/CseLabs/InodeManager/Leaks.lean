import CseLabs.InodeManager.Theorems

namespace CseLabs.InodeManager

section Accounts

-- A file of n blocks has become one of n' blocks. The blocks it keeps stay where they are, those
-- it has given up are free, and whatever is newly marked is one of its blocks.
structure Accounts (s s' : Fs) (ino ino' : Inode) (n n' : Nat) : Prop where
  data : ∀ k < n, k < n' → s'.blockid ino' k = s.blockid ino k
  table : NDIRECT < n → NDIRECT < n' → ino'.indirect = ino.indirect
  freed : ∀ k, n' ≤ k → k < n → s'.usingBlocks (s.blockid ino k) = false
  marks : ∀ b, s'.usingBlocks b = true →
    s.usingBlocks b = true ∨ ∃ slot, Uses ino' n' False slot ∧ s'.at ino' slot = b

variable {s s' : Fs} {ino ino' : Inode} {n n' : Nat} {keep : Prop} {others : Nat → Prop} {junk : Stack}

-- Growing by more than one block.
theorem Accounts.trans {s₁ : Fs} {ino₁ : Inode} {n₁ : Nat} (hn : n ≤ n₁) (hn' : n₁ ≤ n')
    (h : Accounts s s₁ ino ino₁ n n₁) (h' : Accounts s₁ s' ino₁ ino' n₁ n') : Accounts s s' ino ino' n n' where
  data k hk hk' := (h'.data k (by omega) hk').trans (h.data k hk (by omega))
  table hlt hlt' := (h'.table (by omega) hlt').trans (h.table hlt (by omega))
  freed k hlo hhi := by omega
  marks b hb := by
    rcases h'.marks b hb with hmid | hnew
    · rcases h.marks b hmid with hold | ⟨slot, hu, rfl⟩
      · exact .inl hold
      · refine .inr ⟨slot, ?_⟩
        cases slot with
        | data k =>
            have hk : k < n₁ := hu
            exact ⟨hk.trans_le hn', h'.data k hk (hk.trans_le hn')⟩
        | indirect =>
            have hlt : NDIRECT < n₁ := hu.resolve_right fun hkeep => hkeep.1
            exact ⟨.indirect_of_lt (by omega), congrArg UInt32.toNat (h'.table hlt (by omega))⟩
    · exact .inr hnew

theorem mark_true_iff (s : Fs) (id b : Nat) :
    (s.mark id true).usingBlocks b = true ↔ s.usingBlocks b = true ∨ id = b := by
  show Function.update s.usingBlocks id true b = true ↔ _
  by_cases he : b = id
  · simp [he]
  · simp [Function.update_of_ne he, Ne.symm he]

theorem allocEntry_marks (hn : NDIRECT ≤ n) (hmax : n < MAXFILE) (hhigh : ino.indirect.toNat < BLOCK_NUM)
    (hrun : allocEntry junk ino n s = .ok ino' s') (hleft : s'.exhausted = false) :
    ino' = ino ∧ ∀ b, s'.usingBlocks b = true → s.usingBlocks b = true ∨ s'.blockid ino n = b := by
  rw [allocEntry, bind_ok (readBlock_run hhigh)] at hrun
  rcases allocBlock_run s with ⟨id, -, hid, -, -, halloc⟩ | ⟨-, halloc⟩
  · rw [bind_ok halloc, bind_ok (writeBlock_run hhigh)] at hrun
    cases hrun
    refine ⟨rfl, fun b hb => ((mark_true_iff s id b).mp hb).imp_right fun heq => ?_⟩
    exact (blockid_setWord s ino hn hmax hid (Nat.lt_succ_self n)).trans ((if_pos rfl).trans heq)
  · rw [bind_ok halloc, bind_ok (writeBlock_run hhigh)] at hrun
    cases hrun
    cases hleft

-- The new block and, with the first block past the direct ones, perhaps the indirect block.
theorem allocNthBlock_marks (hmax : n < MAXFILE)
    (hhigh : NDIRECT ≤ n → ino.indirect ≠ 0 → ino.indirect.toNat < BLOCK_NUM)
    (hrun : allocNthBlock junk ino n s = .ok ino' s') (hleft : s'.exhausted = false) :
    (ino.indirect ≠ 0 → ino'.indirect = ino.indirect) ∧
      ∀ b, s'.usingBlocks b = true → s.usingBlocks b = true ∨ ∃ slot, Uses ino' (n + 1) False slot ∧ s'.at ino' slot = b := by
  by_cases hn : n < NDIRECT
  · simp only [allocNthBlock, hn, dif_pos] at hrun
    rcases allocBlock_run s with ⟨id, -, hid, -, -, halloc⟩ | ⟨-, halloc⟩
    · rw [bind_ok halloc] at hrun
      cases hrun
      refine ⟨fun _ => indirect_setBlock_of_lt ino hn id, fun b hb => ((mark_true_iff s id b).mp hb).imp_right ?_⟩
      rintro rfl
      exact ⟨.data n, Nat.lt_succ_self n, (blockid_setBlock_data _ ino hn hn hid).trans (if_pos rfl)⟩
    · rw [bind_ok halloc] at hrun
      cases hrun
      cases hleft
  · have hle : NDIRECT ≤ n := not_lt.mp hn
    have hentry : ∀ {b}, s'.blockid ino' n = b → ∃ slot, Uses ino' (n + 1) False slot ∧ s'.at ino' slot = b :=
      fun hb => ⟨.data n, Nat.lt_succ_self n, hb⟩
    simp only [allocNthBlock, hn, dif_neg, not_false_iff, hmax, if_pos] at hrun
    by_cases hind : ino.indirect = 0
    · rw [if_pos hind] at hrun
      rcases allocBlock_run s with ⟨id, -, hid, -, -, halloc⟩ | ⟨-, halloc⟩
      · rw [bind_ok halloc] at hrun
        have hlast := indirect_setBlock_last ino hid
        obtain ⟨rfl, hmarks⟩ := allocEntry_marks hle hmax (by rwa [hlast]) hrun hleft
        refine ⟨fun hne => absurd hind hne, fun b hb => ?_⟩
        rcases hmarks b hb with hmid | hb
        · refine ((mark_true_iff s id b).mp hmid).imp_right fun heq => ?_
          exact ⟨.indirect, .indirect_of_lt (by omega), hlast.trans heq⟩
        · exact .inr (hentry hb)
      · rw [bind_ok halloc] at hrun
        have hlost : Lost (allocEntry junk (ino.setBlock (Fin.last NDIRECT) 0) n { s with exhausted := true }) :=
          allocEntry_sticky junk _ n _ rfl
        rw [hrun] at hlost
        exact absurd hlost (ne_true_of_eq_false hleft)
    · rw [if_neg hind] at hrun
      obtain ⟨rfl, hmarks⟩ := allocEntry_marks hle hmax (hhigh hle hind) hrun hleft
      exact ⟨fun _ => rfl, fun b hb => (hmarks b hb).imp_right hentry⟩

theorem Owns.allocNthBlock_accounts (h : Owns s ino n keep others) (hmax : n < MAXFILE)
    (hkeep : NDIRECT ≤ n → keep) (hothers : ∀ b, others b → s.usingBlocks b = true) (hexhausted : s.exhausted = false)
    (hrun : InodeManager.allocNthBlock junk ino n s = .ok ino' s') (hleft : s'.exhausted = false) :
    Accounts s s' ino ino' n (n + 1) := by
  rcases h.allocNthBlock junk hmax hkeep hothers hexhausted with ⟨ino₁, s₁, hrun₁, hgrown⟩ | hlost
  · rw [hrun] at hrun₁
    cases hrun₁
    obtain ⟨htable, hmarks⟩ := allocNthBlock_marks hmax
      (fun hle hind => (h.mine .indirect (.inr ⟨hkeep hle, hind⟩)).high) hrun hleft
    exact ⟨fun k hk _ => hgrown.same k hk, fun hlt _ => htable (h.indirect_ne_zero hlt),
      fun k hlo hhi => by omega, hmarks⟩
  · rw [Lost, hrun] at hlost
    exact absurd hlost (ne_true_of_eq_false hleft)

theorem Owns.allocFrom_accounts {count : Nat} (h : Owns s ino n keep others) (hmax : n + count ≤ MAXFILE)
    (hkeep : NDIRECT < n + count → keep) (hothers : ∀ b, others b → s.usingBlocks b = true)
    (hexhausted : s.exhausted = false) (hrun : InodeManager.allocFrom junk ino n count s = .ok ino' s')
    (hleft : s'.exhausted = false) : Accounts s s' ino ino' n (n + count) := by
  induction count generalizing s ino n with
  | zero =>
      cases hrun
      exact ⟨fun _ _ _ => rfl, fun _ _ => rfl, fun k hlo hhi => by omega, fun b hb => .inl hb⟩
  | succ count ih =>
      rw [InodeManager.allocFrom] at hrun
      rcases h.allocNthBlock junk (by omega) (fun _ => hkeep (by omega)) hothers hexhausted with
        ⟨ino₁, s₁, hrun₁, hgrown⟩ | hlost
      · rw [bind_ok hrun₁] at hrun
        have hfirst := h.allocNthBlock_accounts (by omega) (fun _ => hkeep (by omega)) hothers hexhausted hrun₁
          hgrown.exhausted
        have hrest := ih hgrown.owns (by omega) (fun _ => hkeep (by omega))
          (fun b hb => hgrown.marks b (hothers b hb)) hgrown.exhausted hrun
        have hboth := hfirst.trans (show n ≤ n + 1 by omega) (Nat.le_add_right _ _) hrest
        rwa [Nat.add_right_comm, Nat.add_assoc] at hboth
      · have hlost := hlost.bind fun ino₁ => allocFrom_sticky junk ino₁ (n + 1) count
        rw [Lost, hrun] at hlost
        exact absurd hlost (ne_true_of_eq_false hleft)

theorem Owns.resize_accounts (h : Owns s ino n keep others) (hn : n ≤ MAXFILE) (hn' : n' ≤ MAXFILE)
    (hkeep : NDIRECT < n' → keep) (hothers : ∀ b, others b → s.usingBlocks b = true)
    (hexhausted : s.exhausted = false) (hrun : InodeManager.resize junk ino n n' s = .ok ino' s')
    (hleft : s'.exhausted = false) : Accounts s s' ino ino' n n' := by
  by_cases hlt : n < n'
  · simp only [InodeManager.resize, hlt, if_true] at hrun
    have hcount : n + (n' - n) = n' := by omega
    have haccounts := h.allocFrom_accounts (by omega) (by rwa [hcount]) hothers hexhausted hrun hleft
    rwa [hcount] at haccounts
  · have hcount : n' + (n - n') = n := by omega
    obtain ⟨s₁, hfree, hfreed⟩ := freeFrom_run (s := s) junk ino (show n' + (n - n') ≤ MAXFILE by omega)
      fun hind => ⟨h.indirect_ne_zero (by omega), (h.mine .indirect (.indirect_of_lt (by omega))).high⟩
    simp only [InodeManager.resize, hlt, if_false] at hrun
    rw [bind_ok hfree] at hrun
    cases hrun
    rw [hcount] at hfreed
    refine ⟨fun k _ _ => blockid_congr rfl fun _ => by rw [hfreed.blocks], fun _ _ => rfl, fun k hlo hhi => ?_,
      fun b hb => .inl ((hfreed.marks b).mp hb).1⟩
    exact eq_false_of_ne_true fun hb => ((hfreed.marks _).mp hb).2 k hlo hhi rfl

-- The data and the inode are written without a change to the block ids or the marks.
theorem Accounts.written {s₁ s₂ : Fs} {ino₁ : Inode} {inum : Nat} {content : Nat → Data}
    (h : Accounts s s₁ ino ino₁ n n') (howns : Owns s₁ ino₁ n' keep others)
    (hpatch : Patched s₁ s₂ ino₁ 0 n' content) (hinum : inum < INODE_NUM) (hblocks : ino'.blocks = ino₁.blocks) :
    Accounts s (s₂.setInode inum ino') ino ((s₂.setInode inum ino').inode inum) n n' := by
  have hind : ino'.indirect = ino₁.indirect := congrFun hblocks _
  have hdata : ∀ k < n', (s₂.setInode inum ino').blockid ino' k = s₁.blockid ino₁ k := fun k hk =>
    ((hpatch.owns howns le_rfl).blockid_setInode hinum hblocks hk).trans (hpatch.blockid howns le_rfl hk)
  have husing : (s₂.setInode inum ino').usingBlocks = s₁.usingBlocks := hpatch.usingBlocks
  rw [inode_setInode_self]
  refine ⟨fun k hk hk' => (hdata k hk').trans (h.data k hk hk'), fun hlt hlt' => hind.trans (h.table hlt hlt'),
    fun k hlo hhi => by rw [husing, h.freed k hlo hhi], fun b hb => ?_⟩
  rw [husing] at hb
  refine (h.marks b hb).imp_right ?_
  rintro ⟨slot, hu, hslot⟩
  refine ⟨slot, ?_⟩
  cases slot with
  | data k => exact ⟨hu, (hdata k hu).trans hslot⟩
  | indirect => exact ⟨hu.imp_right fun hkeep => hkeep.1.elim, (congrArg UInt32.toNat hind).trans hslot⟩

theorem writeFile_accounts {now : Times} {inum : Nat} {buf : Bytes} (hinum : inum < INODE_NUM)
    (hsize : (s.inode inum).size.toNat ≤ MAXFILE * BLOCK_SIZE) (hbuf : buf.length < MAXFILE * BLOCK_SIZE)
    (h : Owns s (s.inode inum) (s.nblocks inum) keep others)
    (hkeep : NDIRECT < blocksNum buf.length → keep) (hothers : ∀ b, others b → s.usingBlocks b = true)
    (hexhausted : s.exhausted = false) (hrun : writeFile junk now inum buf s = .ok () s')
    (hleft : s'.exhausted = false) :
    Accounts s s' (s.inode inum) (s'.inode inum) (s.nblocks inum) (blocksNum buf.length) := by
  rw [writeFile] at hrun
  simp only [if_neg (not_le.mpr hbuf)] at hrun
  rw [bind_ok (getInode_run hinum)] at hrun
  dsimp only at hrun
  have hn := blocksNum_le hsize
  have hn' := blocksNum_le hbuf.le
  rcases h.resize junk hn hn' hkeep hothers hexhausted with ⟨ino₁, s₁, hrun₁, hresized⟩ | hlost
  · obtain ⟨s₂, hdata, hpatch⟩ := hresized.owns.writeData junk buf hbuf.le
    have haccounts := h.resize_accounts hn hn' hkeep hothers hexhausted hrun₁ hresized.exhausted
    rw [Fs.nblocks] at hrun₁
    rw [bind_ok hrun₁, bind_ok hdata, putInode_run hinum] at hrun
    cases hrun
    exact haccounts.written hresized.owns hpatch hinum rfl
  · have hlost := hlost.bind fun ino₁ => (writeData_sticky junk ino₁ buf).bind fun _ => putInode_sticky inum
      { ino₁ with size := UInt32.ofNat buf.length, atime := now.atime, mtime := now.mtime, ctime := now.ctime }
    rw [Fs.nblocks] at hlost
    rw [Lost, hrun] at hlost
    exact absurd hlost (ne_true_of_eq_false hleft)

end Accounts

section Ledger

-- The store, and for each marked block the inode whose write_file has allocated it, unless
-- alloc_inode has returned that inode since.
structure Ledger where
  fs : Fs
  owner : Nat → Option Nat

-- A call of write_file allocates blocks or frees blocks, not both: those it has allocated are
-- the ones that were not marked before it and are marked after it.
def Ledger.ownerAfter (l : Ledger) (next : Fs) (b : Nat) : Event → Option Nat
  | .allocInode type =>
      match InodeManager.allocInode type l.fs with
      | .ok inum _ => if l.owner b = some inum then none else l.owner b
      | .error _ _ => l.owner b
  | .writeFile _ _ inum _ =>
      if next.usingBlocks b then if l.fs.usingBlocks b then l.owner b else some inum else none
  | .removeFile _ _ => if next.usingBlocks b then l.owner b else none

def Ledger.step (l : Ledger) (event : Event) : Option Ledger :=
  (InodeManager.step l.fs event).map fun next => ⟨next, fun b => l.ownerAfter next b event⟩

def Ledger.Step (l : Ledger) (event : Event) (next : Ledger) : Prop := l.step event = some next

def Ledger.Initial (l : Ledger) : Prop := InodeManager.Initial l.fs ∧ l.owner = fun _ => none

-- remove_file unmarks the blocks allocated for the file. Once no other inode than the root's
-- is in use, what is marked in the file area are the root's blocks.
structure Ledger.NoLeak (l : Ledger) : Prop where
  removed : ∀ junk inum, l.fs.Live inum → ∃ s', removeFile junk inum l.fs = .ok () s' ∧
    ∀ b, l.owner b = some inum → s'.usingBlocks b = false
  root : (∀ inum, l.fs.Live inum → inum = 1) → ∀ b, FILEBLOCK ≤ b → l.fs.usingBlocks b = true →
    ∃ slot, l.fs.RefersTo 1 slot ∧ l.fs.ref 1 slot = b

-- A file past its direct blocks stays past them until it is removed, and one that gets past them
-- finds blocks[NDIRECT] zero.
def SteadyIndirect (s : Fs) : Event → Prop
  | .writeFile _ _ inum buf =>
      (NDIRECT < s.nblocks inum → NDIRECT < blocksNum buf.length) ∧
        (s.nblocks inum ≤ NDIRECT → NDIRECT < blocksNum buf.length → (s.inode inum).indirect = 0)
  | _ => True

instance (s : Fs) (event : Event) : Decidable (SteadyIndirect s event) :=
  match event with
  | .allocInode _ => inferInstanceAs (Decidable True)
  | .writeFile _ _ inum buf =>
      inferInstanceAs (Decidable ((NDIRECT < s.nblocks inum → NDIRECT < blocksNum buf.length) ∧
        (s.nblocks inum ≤ NDIRECT → NDIRECT < blocksNum buf.length → (s.inode inum).indirect = 0)))
  | .removeFile _ _ => inferInstanceAs (Decidable True)

theorem SteadyIndirect.fresh {s : Fs} {event : Event} (h : SteadyIndirect s event) : FreshIndirect s event := by
  cases event with
  | writeFile junk now inum buf => exact fun hle hlt hne => absurd (h.2 hle hlt) hne
  | allocInode type => trivial
  | removeFile junk inum => trivial

def Fs.RefersBlock (s : Fs) (inum b : Nat) : Prop := ∃ slot, s.Refers False inum slot ∧ s.ref inum slot = b

-- Every marked block of the file area is one that a file refers to, its owner if it has one.
structure Ledger.Balanced (l : Ledger) : Prop where
  separated : Separated False l.fs
  referred : ∀ b, FILEBLOCK ≤ b → l.fs.usingBlocks b = true → ∃ inum, l.fs.RefersBlock inum b
  owned : ∀ b inum, l.owner b = some inum → l.fs.RefersBlock inum b

variable {l l' : Ledger} {s s' : Fs}

theorem Untouched.refersBlock {j b : Nat} (h : Untouched s s' False j) (hb : s.RefersBlock j b) :
    s'.RefersBlock j b := by
  obtain ⟨slot, hrefers, rfl⟩ := hb
  exact ⟨slot, h.refers.mpr hrefers, h.ref slot hrefers⟩

theorem Separated.refersBlock_marked {inum b : Nat} (h : Separated False s) (hb : s.RefersBlock inum b) :
    FILEBLOCK ≤ b ∧ s.usingBlocks b = true := by
  obtain ⟨slot, hrefers, rfl⟩ := hb
  have hmine := (h.owns inum hrefers.1).mine slot hrefers.2
  exact ⟨hmine.low, hmine.marked⟩

theorem Fs.RefersBlock.live {inum b : Nat} (h : s.RefersBlock inum b) : s.Live inum := by
  obtain ⟨slot, ⟨⟨hlt, htype⟩, -⟩, -⟩ := h
  exact ⟨hlt, htype.resolve_left not_false⟩

theorem Ledger.Balanced.noLeak (h : l.Balanced) : l.NoLeak := by
  constructor
  · intro junk inum hlive
    obtain ⟨s₁, hrun, -, -, hmarks⟩ := h.separated.removeFile_run junk hlive
    refine ⟨_, hrun, fun b howner => eq_false_of_ne_true fun hb => ?_⟩
    obtain ⟨slot, hrefers, href⟩ := h.owned b inum howner
    exact ((hmarks b).mp hb).2 slot hrefers href
  · intro honly b hlow hb
    obtain ⟨inum, hrefers⟩ := h.referred b hlow hb
    obtain rfl := honly inum hrefers.live
    obtain ⟨slot, hrefers, href⟩ := hrefers
    exact ⟨slot, (refersTo_iff 1 slot).mpr hrefers, href⟩

theorem Ledger.step_iff {event : Event} :
    l.Step event l' ↔ InodeManager.Step l.fs event l'.fs ∧ l'.owner = fun b => l.ownerAfter l'.fs b event := by
  rw [Ledger.Step, Ledger.step, Option.map_eq_some_iff]
  constructor
  · rintro ⟨next, hnext, rfl⟩
    exact ⟨hnext, rfl⟩
  · rintro ⟨hnext, howner⟩
    exact ⟨l'.fs, hnext, by rw [← howner]⟩

theorem Ledger.Balanced.allocInode {type : UInt32} (h : l.Balanced) (hstep : l.Step (.allocInode type) l') :
    l'.Balanced := by
  obtain ⟨hstep, howner⟩ := Ledger.step_iff.mp hstep
  have hseparated := step_allocInode h.separated hstep
  have hrun := (InodeManager.step_iff.mp hstep).1
  rw [Event.run] at hrun
  rcases allocInode_cases type l.fs with ⟨k, -, hk, -, hfree, halloc⟩ | ⟨-, halloc⟩
  · rw [bind_ok halloc] at hrun
    have hfs : l.fs.setInode k ((l.fs.inode k).fresh type.toUInt16) = l'.fs := (EStateM.Result.ok.inj hrun).2
    -- the inode was free, so whatever was referred to still is
    have hkept : ∀ inum b, l.fs.RefersBlock inum b → l'.fs.RefersBlock inum b := by
      intro inum b hb
      have hne : inum ≠ k := fun heq => hb.live.2 (heq ▸ hfree)
      rw [← hfs]
      refine Untouched.refersBlock (h.separated.untouched_setInode hk rfl hne fun slot hrefers => ?_) hb
      exact (h.separated.refersBlock_marked ⟨slot, hrefers, rfl⟩).2
    refine ⟨hseparated, fun b hlow hb => ?_, fun b inum hb => ?_⟩
    · rw [← hfs] at hb
      obtain ⟨inum, hrefers⟩ := h.referred b hlow hb
      exact ⟨inum, hkept inum b hrefers⟩
    · simp only [howner, Ledger.ownerAfter, halloc] at hb
      split at hb
      · cases hb
      · exact hkept inum b (h.owned b inum hb)
  · rw [bind_error halloc] at hrun
    cases hrun

theorem Ledger.Balanced.removeFile {junk : Stack} {inum : Nat} (h : l.Balanced)
    (hlive : Legal l.fs (.removeFile junk inum)) (hstep : l.Step (.removeFile junk inum) l') : l'.Balanced := by
  obtain ⟨hstep, howner⟩ := Ledger.step_iff.mp hstep
  have hrun := (InodeManager.step_iff.mp hstep).1
  have hseparated := step_owned h.separated hlive trivial hstep
  obtain ⟨s₁, hremove, hblocks, -, hmarks⟩ := h.separated.removeFile_run junk hlive
  rw [Event.run, hremove] at hrun
  have hfs : s₁.setInode inum ((l.fs.inode inum).fresh 0) = l'.fs := (EStateM.Result.ok.inj hrun).2
  -- a block that is still marked is another file's
  have hkept : ∀ j b, l.fs.RefersBlock j b → l'.fs.usingBlocks b = true → l'.fs.RefersBlock j b := by
    intro j b hb hmarked
    rw [← hfs] at hmarked ⊢
    have hne : j ≠ inum := by
      rintro rfl
      obtain ⟨slot, hrefers, href⟩ := hb
      exact ((hmarks b).mp hmarked).2 slot hrefers href
    refine Untouched.refersBlock (h.separated.untouched_setInode hlive.1 hblocks hne fun slot hrefers => ?_) hb
    refine (hmarks _).mpr ⟨(h.separated.refersBlock_marked ⟨slot, hrefers, rfl⟩).2, fun other hother heq => ?_⟩
    exact ((h.separated.owns inum hother.1).mine other hother.2).apart ⟨j, slot, hne, hrefers, heq.symm⟩
  refine ⟨hseparated, fun b hlow hb => ?_, fun b j hb => ?_⟩
  · have hold : l.fs.usingBlocks b = true := by
      rw [← hfs] at hb
      exact ((hmarks b).mp hb).1
    obtain ⟨j, hrefers⟩ := h.referred b hlow hold
    exact ⟨j, hkept j b hrefers hb⟩
  · simp only [howner, Ledger.ownerAfter] at hb
    split at hb
    · next hmarked => exact hkept j b (h.owned b j hb) hmarked
    · cases hb

theorem Ledger.Balanced.writeFile {junk : Stack} {now : Times} {inum : Nat} {buf : Bytes} (h : l.Balanced)
    (hlegal : Legal l.fs (.writeFile junk now inum buf)) (hsteady : SteadyIndirect l.fs (.writeFile junk now inum buf))
    (hstep : l.Step (.writeFile junk now inum buf) l') : l'.Balanced := by
  obtain ⟨hstep, howner⟩ := Ledger.step_iff.mp hstep
  obtain ⟨hrun, hleft⟩ := InodeManager.step_iff.mp hstep
  have hseparated := step_owned h.separated hlegal hsteady.fresh hstep
  obtain ⟨hlive, hbuf⟩ := hlegal
  have hcounts : l.fs.Counts False inum := ⟨hlive.1, .inr hlive.2⟩
  obtain ⟨keep, -, hgrow, howns⟩ := h.separated.owns_write hcounts fun _ => indirectOk_of_fresh hsteady.fresh
  have hsize := (h.separated.size inum hcounts).le
  have hmarked := h.separated.others_marked inum
  have haccounts := writeFile_accounts hlive.1 hsize hbuf howns hgrow hmarked h.separated.exhausted hrun hleft
  rcases writeFile_run junk now hlive.1 hsize hbuf howns hgrow hmarked h.separated.exhausted with
    ⟨s₁, hrun₁, hwritten⟩ | hlost
  · have hfs : s₁ = l'.fs := by
      have heq := hrun₁.symm.trans hrun
      cases heq
      rfl
    subst hfs
    have hrefers : ∀ slot, Uses (l'.fs.inode inum) (blocksNum buf.length) False slot → l'.fs.Refers False inum slot := by
      intro slot hu
      refine ⟨⟨hlive.1, .inr (hwritten.type ▸ hlive.2)⟩, ?_⟩
      rwa [Fs.nblocks, hwritten.size]
    -- what the file has not given up it still refers to
    have hkept : ∀ j b, l.fs.RefersBlock j b → l'.fs.usingBlocks b = true → l'.fs.RefersBlock j b := by
      intro j b hb hnow
      by_cases hj : j = inum
      · subst j
        obtain ⟨slot, ⟨-, hu⟩, rfl⟩ := hb
        cases slot with
        | data k =>
            have hk : k < blocksNum buf.length := by
              by_contra hge
              exact absurd hnow (ne_true_of_eq_false (haccounts.freed k (not_lt.mp hge) hu))
            exact ⟨.data k, hrefers _ hk, haccounts.data k hu hk⟩
        | indirect =>
            have hlt := hu.resolve_right fun hkeep => hkeep.1
            exact ⟨.indirect, hrefers _ (.indirect_of_lt (hsteady.1 hlt)),
              congrArg UInt32.toNat (haccounts.table hlt (hsteady.1 hlt))⟩
      · exact (hwritten.untouched h.separated hlive.1 hj hb.live.1).refersBlock hb
    refine ⟨hseparated, fun b hlow hb => ?_, fun b j hb => ?_⟩
    · rcases haccounts.marks b hb with hold | ⟨slot, hu, hslot⟩
      · obtain ⟨j, hj⟩ := h.referred b hlow hold
        exact ⟨j, hkept j b hj hb⟩
      · exact ⟨inum, slot, hrefers slot hu, hslot⟩
    · simp only [howner, Ledger.ownerAfter] at hb
      split at hb
      · next hnow =>
          split at hb
          · exact hkept j b (h.owned b j hb) hnow
          · next hold =>
              cases hb
              obtain ⟨slot, hu, hslot⟩ := (haccounts.marks b hnow).resolve_left hold
              exact ⟨slot, hrefers slot hu, hslot⟩
      · cases hb
  · exact absurd hlost (not_lost_of_step hstep)

theorem Ledger.Balanced.step {event : Event} (h : l.Balanced) (hlegal : Legal l.fs event)
    (hsteady : SteadyIndirect l.fs event) (hstep : l.Step event l') : l'.Balanced := by
  cases event with
  | allocInode type => exact h.allocInode hstep
  | writeFile junk now inum buf => exact h.writeFile hlegal hsteady hstep
  | removeFile junk inum => exact h.removeFile hlegal hstep

theorem Ledger.Initial.balanced (h : l.Initial) : l.Balanced := by
  refine ⟨initial_separated h.1, fun b hlow hb => ?_, fun b inum hb => ?_⟩
  · have hlt : b < FILEBLOCK := by
      rw [initial_usingBlocks h.1] at hb
      exact of_decide_eq_true hb
    omega
  · rw [h.2] at hb
    cases hb

theorem no_block_leak
    (hr : Reachable (Guarded (fun l event => Legal l.fs event ∧ SteadyIndirect l.fs event) Ledger.Step)
      Ledger.Initial l) : l.NoLeak :=
  (hr.invariant Ledger.Balanced (fun _ => Ledger.Initial.balanced)
    fun _ _ _ h hstep => h.step hstep.1.1 hstep.1.2 hstep.2).noLeak

def startLedger : Ledger := ⟨startFs, fun _ => none⟩

theorem initial_startLedger : startLedger.Initial := ⟨initial_startFs, rfl⟩

-- Of two files the first one is removed.
theorem no_block_leak_files : ∃ l : Ledger, l.fs.usingBlocks 1035 = false ∧
    [l.owner 1035, l.owner 1036, l.owner 1037] = [none, some 3, some 3] ∧ l.NoLeak := by
  have hrun : (execute (fun l event => if Legal l.fs event ∧ SteadyIndirect l.fs event then
      Ledger.step l event else none) startLedger (twoFiles ++ [.removeFile .zero 2])).map
        (fun l => (l.fs.usingBlocks 1035, [l.owner 1035, l.owner 1036, l.owner 1037])) =
      some (false, [none, some 3, some 3]) := by
    decide +kernel
  obtain ⟨l, hl, hfields⟩ := Option.map_eq_some_iff.mp hrun
  obtain ⟨hfree, howners⟩ := Prod.mk.inj hfields
  exact ⟨l, hfree, howners, no_block_leak (Reachable.executed (.start initial_startLedger) hl)⟩

-- A file is written past its direct blocks, and then made empty. It keeps its indirect block,
-- the 101st it was given.
theorem shrink_run :
    (execute (fun l event => if Legal l.fs event then Ledger.step l event else none) startLedger
      [.allocInode T_FILE, .writeFile .zero ⟨1, 1, 1⟩ 2 pastDirect, .writeFile .zero ⟨1, 1, 1⟩ 2 []]).map
      (fun l => ((l.fs.inode 2).type, l.owner 1135, (finalState (removeFile .zero 2 l.fs)).usingBlocks 1135)) =
      some (2, some 2, true) := by
  decide +kernel

theorem indirect_block_leaked :
    ∃ l : Ledger, Reachable (Guarded (fun l event => Legal l.fs event) Ledger.Step) Ledger.Initial l ∧ ¬ l.NoLeak := by
  obtain ⟨l, hl, hfields⟩ := Option.map_eq_some_iff.mp shrink_run
  simp only [Prod.mk.injEq] at hfields
  obtain ⟨htype, howner, hmarked⟩ := hfields
  refine ⟨l, Reachable.executed (.start initial_startLedger) hl, fun hleak => ?_⟩
  have hlive : l.fs.Live 2 := ⟨by decide, by rw [htype]; decide⟩
  obtain ⟨s', hrun, hfree⟩ := hleak.removed .zero 2 hlive
  rw [hrun] at hmarked
  exact absurd hmarked (ne_true_of_eq_false (hfree 1135 howner))

end Ledger

end CseLabs.InodeManager
