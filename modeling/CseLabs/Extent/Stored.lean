import CseLabs.Extent
import CseLabs.InodeManager.Theorems

namespace CseLabs.Extent

open InodeManager

section Contents

-- Files and directories in use: the inodes whose content clients ask for.
def Readable (im : Fs) (id : Nat) : Prop := im.Live id ∧ (im.inode id).type ≠ T_SYMLINK.toUInt16

instance (im : Fs) (id : Nat) : Decidable (Readable im id) :=
  inferInstanceAs (Decidable ((id < INODE_NUM ∧ (im.inode id).type ≠ 0) ∧ _))

-- The server's copy of every file and directory is the one on disk. A symbolic link's need not
-- be: its update_cache is the last thing createSymLink does.
structure Stored (im : Fs) (dataCache : Nat → Bytes) : Prop where
  separated : Separated False im
  content : ∀ id, Readable im id → dataCache id = im.content (im.inode id)
  free : ∀ id < INODE_NUM, ¬ im.Live id → dataCache id = []

-- A write_file call that finds its indirect block free to use, and does not run out of blocks.
def Takes (junk : Stack) (now : Times) (im : Fs) (id : Nat) (buf : Bytes) : Prop :=
  FreshIndirect im (.writeFile junk now id buf) ∧ ¬ Lost (writeFile junk now id buf im)

instance (junk : Stack) (now : Times) (im : Fs) (id : Nat) (buf : Bytes) : Decidable (Takes junk now im id buf) :=
  inferInstanceAs (Decidable (_ ∧ ¬ (finalState (writeFile junk now id buf im)).exhausted = true))

-- No inode is freed or changes its type.
def Keeps (im im' : Fs) : Prop := ∀ id, im.Live id → (im'.inode id).type = (im.inode id).type

variable {im im' : Fs} {dataCache dataCache' : Nat → Bytes} {id : Nat}

theorem Keeps.live (h : Keeps im im') (hlive : im.Live id) : im'.Live id :=
  ⟨hlive.1, h id hlive ▸ hlive.2⟩

theorem Keeps.readable (h : Keeps im im') (hreadable : Readable im id) : Readable im' id :=
  ⟨h.live hreadable.1, h id hreadable.1 ▸ hreadable.2⟩

theorem Keeps.refl (im : Fs) : Keeps im im := fun _ _ => rfl

theorem Keeps.trans {im'' : Fs} (h : Keeps im im') (h' : Keeps im' im'') : Keeps im im'' :=
  fun id hlive => (h' id (h.live hlive)).trans (h id hlive)

theorem Stored.refresh (h : Stored im dataCache) (hlive : im.Live id) :
    Stored im (Function.update dataCache id (im.content (im.inode id))) := by
  refine ⟨h.separated, fun j hreadable => ?_, fun j hj hfree => ?_⟩
  · by_cases he : j = id
    · subst he
      exact Function.update_self ..
    · rw [Function.update_of_ne he]
      exact h.content j hreadable
  · have he : j ≠ id := fun he => hfree (he ▸ hlive)
    rw [Function.update_of_ne he]
    exact h.free j hj hfree

-- write_file, and a copy that has followed it.
theorem Stored.write {junk : Stack} {now : Times} {buf : Bytes} (h : Stored im dataCache) (hlive : im.Live id)
    (htakes : Takes junk now im id buf) (hrun : writeFile junk now id buf im = .ok () im')
    (hself : Readable im id → dataCache' id = buf) (hothers : ∀ j, j ≠ id → dataCache' j = dataCache j) :
    Stored im' dataCache' ∧ Keeps im im' ∧ (∀ j, im'.Live j → im.Live j) ∧ im'.content (im'.inode id) = buf := by
  have hbuf : buf.length < MAXFILE * BLOCK_SIZE := by
    by_contra hle
    rw [writeFile, if_pos (not_lt.mp hle)] at hrun
    cases hrun
  have hcounts : im.Counts False id := ⟨hlive.1, .inr hlive.2⟩
  rcases h.separated.writeFile junk now hcounts hbuf fun _ => indirectOk_of_fresh htakes.1 with
    ⟨s, keep, hs, -, hwritten⟩ | hlost
  · obtain rfl : s = im' := by
      have heq := hs.symm.trans hrun
      cases heq
      rfl
    have hinode : ∀ j, j ≠ id → j < INODE_NUM → s.inode j = im.inode j :=
      fun j hj hlt => (hwritten.untouched h.separated hlive.1 hj hlt).inode
    have htype : ∀ j < INODE_NUM, (s.inode j).type = (im.inode j).type := by
      intro j hlt
      by_cases hj : j = id
      · rw [hj, hwritten.type]
      · rw [hinode j hj hlt]
    have hback : ∀ j, s.Live j → im.Live j := fun j hj => ⟨hj.1, htype j hj.1 ▸ hj.2⟩
    refine ⟨⟨hwritten.separated h.separated hlive.1 hbuf False.elim, fun j hreadable => ?_, fun j hlt hfree => ?_⟩,
      fun j hj => htype j hj.1, hback, hwritten.content⟩
    · have hold : Readable im j := ⟨hback j hreadable.1, htype j hreadable.1.1 ▸ hreadable.2⟩
      by_cases hj : j = id
      · subst hj
        rw [hself hold, hwritten.content]
      · rw [hothers j hj, h.content j hold]
        exact ((hwritten.untouched h.separated hlive.1 hj hold.1.1).content ⟨hold.1.1, .inr hold.1.2⟩).symm
    · have hfree' : ¬ im.Live j := fun hj => hfree ⟨hj.1, (htype j hj.1).symm ▸ hj.2⟩
      have hj : j ≠ id := fun hj => hfree' (hj ▸ hlive)
      rw [hothers j hj, h.free j hlt hfree']
  · exact absurd hlost htakes.2

-- alloc_inode takes a free inode and makes it an empty file.
theorem Stored.alloc {type : UInt32} (h : Stored im dataCache) (htype : type.toUInt16 ≠ 0)
    (hrun : allocInode type im = .ok id im') :
    Stored im' dataCache ∧ Keeps im im' ∧ id < INODE_NUM ∧ ¬ im.Live id ∧ im'.Live id ∧
      (im'.inode id).type = type.toUInt16 ∧ ∀ j, j ≠ id → im'.Live j → im.Live j := by
  rcases allocInode_cases type im with ⟨k, -, hk, -, hfree, halloc⟩ | ⟨-, halloc⟩
  · rw [halloc] at hrun
    cases hrun
    have hnot : ¬ im.Live id := fun hlive => hlive.2 hfree
    have hself := inode_setInode_self (s := im) id ((im.inode id).fresh type.toUInt16)
    have hother : ∀ j, j ≠ id → (im.setInode id ((im.inode id).fresh type.toUInt16)).inode j = im.inode j :=
      fun j hj => inode_setInode_of_ne hj
    have hlive : ∀ j, j ≠ id → ((im.setInode id ((im.inode id).fresh type.toUInt16)).Live j ↔ im.Live j) :=
      fun j hj => by rw [Fs.Live, Fs.Live, hother j hj]
    refine ⟨⟨h.separated.allocInode hk _, fun j hreadable => ?_, fun j hlt hj => ?_⟩, fun j hj => ?_, hk, hnot,
      ⟨hk, ?_⟩, ?_, fun j hj => (hlive j hj).mp⟩
    · by_cases hj : j = id
      · subst hj
        rw [h.free j hk hnot, hself]
        rfl
      · have hold : im.Live j := (hlive j hj).mp hreadable.1
        rw [h.content j ⟨hold, hother j hj ▸ hreadable.2⟩]
        exact ((h.separated.untouched_setInode hk rfl hj fun slot hrefers =>
          ((h.separated.owns j hrefers.1).mine slot hrefers.2).marked).content ⟨hold.1, .inr hold.2⟩).symm
    · refine h.free j hlt fun hold => hj ?_
      exact (hlive j fun he => hnot (he ▸ hold)).mpr hold
    · rw [hother j fun he => hnot (he ▸ hj)]
    · rw [hself]
      exact htype
    · rw [hself]
      rfl
  · rw [halloc] at hrun
    cases hrun

end Contents

end CseLabs.Extent
