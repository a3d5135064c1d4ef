import CseLabs.ExtentService
import CseLabs.InodeManager.Store

namespace CseLabs.ExtentService

open InodeManager (Bytes Fs INODE_NUM T_FILE)

section Allocation

-- The type of an inode as getattr reports it.
def typeOf (im : Fs) (inum : Nat) : UInt32 := (im.inode inum).type.toInt16.toInt32.toUInt32

-- inum is the first inode of type 0, it becomes an empty one of the given type, and the others
-- stay.
structure Fresh (type : UInt32) (im im' : Fs) (inum : Nat) : Prop where
  range : 1 ≤ inum ∧ inum < INODE_NUM
  free : (im.inode inum).type = 0
  least : ∀ j, 1 ≤ j → j < inum → (im.inode j).type ≠ 0
  type : typeOf im' inum = type
  size : (im'.inode inum).size = 0
  others : ∀ j, j ≠ inum → im'.inode j = im.inode j

def HasFree (im : Fs) : Prop := ∃ j, 1 ≤ j ∧ j < INODE_NUM ∧ (im.inode j).type = 0

-- create refuses, and neither the store nor the server's copies change.
def Refuses (type : UInt32) (im : Fs) : Prop :=
  ∀ (n : Nat) (s : System Fs n) (env : Env) (c : Fin n) (parent : Nat) (name : Bytes), s.server.im = im →
    ∃ reply s', s.create diskManager env c type parent name = some (reply, s') ∧ (∀ id, reply ≠ .id id) ∧
      s'.server.im = im ∧ s'.server.dataCache = s.server.dataCache

-- What alloc_inode should do, whatever the inode table holds.
structure FreshOrFails (type : UInt32) (im : Fs) : Prop where
  inRange : ∀ im', InodeManager.allocInode type im ≠ .error .nullDereference im'
  fresh : HasFree im → ∃ inum im', InodeManager.allocInode type im = .ok inum im' ∧ Fresh type im im' inum
  full : ¬ HasFree im → (∃ inum, InodeManager.allocInode type im = .ok inum im) ∧ Refuses type im

-- The type survives as a short.
def Short (type : UInt32) : Prop := type.toUInt16.toInt16.toInt32.toUInt32 = type

instance (type : UInt32) : Decidable (Short type) := inferInstanceAs (Decidable (_ = _))

theorem hasFree_or_full (type : UInt32) (im : Fs) :
    (HasFree im ∧ ∃ inum, 1 ≤ inum ∧ inum < INODE_NUM ∧ (∀ j, 1 ≤ j → j < inum → (im.inode j).type ≠ 0) ∧
      (im.inode inum).type = 0 ∧
      InodeManager.allocInode type im = .ok inum (im.setInode inum ((im.inode inum).fresh type.toUInt16))) ∨
    ¬ HasFree im ∧ InodeManager.allocInode type im = .error .nullDereference im := by
  rcases InodeManager.allocInode_cases type im with ⟨inum, hlo, hhi, hleast, hfree, halloc⟩ | ⟨hfull, halloc⟩
  · exact .inl ⟨⟨inum, hlo, hhi, hfree⟩, inum, hlo, hhi, hleast, hfree, halloc⟩
  · refine .inr ⟨?_, halloc⟩
    rintro ⟨j, hlo, hhi, hzero⟩
    exact hfull j hlo hhi hzero

theorem fresh_or_fails_iff (type : UInt32) (im : Fs) : FreshOrFails type im ↔ HasFree im ∧ Short type := by
  rcases hasFree_or_full type im with ⟨hhas, inum, hlo, hhi, hleast, hfree, halloc⟩ | ⟨hfull, halloc⟩
  · constructor
    · intro h
      obtain ⟨inum', im', halloc', hfresh⟩ := h.fresh hhas
      rw [halloc] at halloc'
      cases halloc'
      have htype := hfresh.type
      rw [typeOf, InodeManager.inode_setInode_self] at htype
      exact ⟨hhas, htype⟩
    · rintro ⟨-, hshort⟩
      refine ⟨fun im' herror => ?_, fun _ => ⟨_, _, halloc, ?_⟩, fun hnot => absurd hhas hnot⟩
      · rw [halloc] at herror
        cases herror
      · refine ⟨⟨hlo, hhi⟩, hfree, hleast, ?_, ?_, fun j hj => InodeManager.inode_setInode_of_ne hj⟩
        · rw [typeOf, InodeManager.inode_setInode_self]
          exact hshort
        · rw [InodeManager.inode_setInode_self]
          rfl
  · exact ⟨fun h => absurd halloc (h.inRange im), fun h => absurd h.1 hfull⟩

-- A table with no inode of type 0.
def fullTable : Fs where
  blocks := fun _ _ => 1
  usingBlocks := fun _ => true

-- The scan goes one too far and takes the type of NULL. The server ends, and with it create.
theorem full_table_dereferences_null :
    ¬ HasFree fullTable ∧ InodeManager.allocInode T_FILE fullTable = .error .nullDereference fullTable ∧
      ∀ (s : System Fs 1) (env : Env) (name : Bytes), s.server.im = fullTable →
        s.create diskManager env 0 T_FILE 1 name = none := by
  have hfull : ¬ HasFree fullTable := by
    rintro ⟨j, -, -, hzero⟩
    have htype : (fullTable.inode j).type = 257 := rfl
    rw [htype] at hzero
    cases hzero
  have halloc : InodeManager.allocInode T_FILE fullTable = .error .nullDereference fullTable := by
    rcases hasFree_or_full T_FILE fullTable with ⟨hhas, -⟩ | ⟨-, halloc⟩
    · exact absurd hhas hfull
    · exact halloc
  refine ⟨hfull, halloc, fun s env name hs => ?_⟩
  have hnone : diskManager.allocInode T_FILE s.server.im = none := by
    show result (InodeManager.allocInode T_FILE s.server.im) = none
    rw [hs, halloc]
    rfl
  rw [System.create, hnone]
  rfl

end Allocation

end CseLabs.ExtentService
