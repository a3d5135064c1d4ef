import CseLabs.InodeManager.Store

namespace CseLabs.InodeManager

section Start

variable {all : Prop} {s : Fs}

-- Every inode of a formatted disk is zero.
theorem inode_format (memory : Data) (inum : Nat) :
    (format memory).inode inum = Inode.ofBlock (fun _ => 0) := by
  have hne : IBLOCK inum BLOCK_NUM ≠ 1 := by
    rw [iblock_eq]
    omega
  rw [Fs.inode, format]
  simp only [Function.update_of_ne hne]

theorem format_separated (memory : Data) : Separated all (format memory) := by
  have hzero : (Inode.ofBlock (fun _ => 0)).size = 0 ∧ (Inode.ofBlock (fun _ => 0)).indirect = 0 := by
    constructor <;> decide +kernel
  have huses : ∀ inum slot, ¬ Uses ((format memory).inode inum) ((format memory).nblocks inum) all slot := by
    intro inum
    refine not_uses_of_empty ?_ fun _ => ?_
    · rw [inode_format, hzero.1]
    · rw [inode_format, hzero.2]
  refine ⟨fun inum _ => ⟨fun slot hu => absurd hu (huses inum slot), fun a b ha => absurd ha (huses inum a)⟩,
    fun inum _ => ?_, rfl⟩
  rw [inode_format, hzero.1]
  decide

theorem Initial.start (hinit : Initial s) :
    ∃ memory k, k < INODE_NUM ∧ s = (format memory).setInode k (((format memory).inode k).fresh T_DIR.toUInt16) := by
  obtain ⟨memory, hrun⟩ := hinit
  rw [inodeManager] at hrun
  rcases allocInode_cases T_DIR (format memory) with ⟨k, -, hk, -, -, halloc⟩ | ⟨-, halloc⟩
  · rw [bind_ok halloc] at hrun
    by_cases hroot : k = 1
    · rw [if_neg (by simpa using hroot)] at hrun
      cases hrun
      exact ⟨memory, k, hk, rfl⟩
    · rw [if_pos hroot] at hrun
      cases hrun
  · rw [bind_error halloc] at hrun
    cases hrun

theorem initial_separated (hinit : Initial s) : Separated all s := by
  obtain ⟨memory, k, hk, rfl⟩ := hinit.start
  exact (format_separated memory).allocInode hk _

theorem initial_usingBlocks (hinit : Initial s) : s.usingBlocks = fun i => decide (i < FILEBLOCK) := by
  obtain ⟨memory, k, -, rfl⟩ := hinit.start
  rfl

end Start

section Steps

variable {all : Prop} {s s' : Fs}

theorem step_iff {event : Event} : Step s event s' ↔ event.run s = .ok () s' ∧ s'.exhausted = false := by
  unfold Step step
  cases event.run s with
  | ok _ next =>
      by_cases hlost : next.exhausted
      · simp only [hlost, if_true, reduceCtorEq, false_iff]
        rintro ⟨heq, hleft⟩
        cases heq
        exact absurd hlost (ne_true_of_eq_false hleft)
      · simp only [hlost, Bool.false_eq_true, if_false, Option.some.injEq, EStateM.Result.ok.injEq, true_and]
        constructor
        · rintro rfl
          exact ⟨rfl, eq_false_of_ne_true hlost⟩
        · exact fun h => h.1
  | error e next => simp

theorem step_allocInode {type : UInt32} (h : Separated all s) (hstep : Step s (.allocInode type) s') :
    Separated all s' := by
  obtain ⟨hrun, -⟩ := step_iff.mp hstep
  rw [Event.run] at hrun
  rcases allocInode_cases type s with ⟨k, -, hk, -, -, halloc⟩ | ⟨-, halloc⟩
  · rw [bind_ok halloc] at hrun
    cases hrun
    exact h.allocInode hk _
  · rw [bind_error halloc] at hrun
    cases hrun

theorem not_lost_of_step {event : Event} (hstep : Step s event s') : ¬ Lost (event.run s) := by
  rw [Lost, (step_iff.mp hstep).1]
  exact ne_true_of_eq_false (step_iff.mp hstep).2

theorem step_writeFile {junk : Stack} {now : Times} {inum : Nat} {buf : Bytes} (h : Separated all s)
    (hcounts : s.Counts all inum) (hbuf : buf.length < MAXFILE * BLOCK_SIZE)
    (hind : ¬ all → s.nblocks inum ≤ NDIRECT → NDIRECT < blocksNum buf.length → s.IndirectOk all inum)
    (hstep : Step s (.writeFile junk now inum buf) s') : Separated all s' := by
  rcases h.writeFile junk now hcounts hbuf hind with ⟨s₁, keep, hrun, hkeep, hwritten⟩ | hlost
  · obtain rfl : s₁ = s' := by
      have heq := hrun.symm.trans (step_iff.mp hstep).1
      cases heq
      rfl
    exact hwritten.separated h hcounts.1 hbuf hkeep
  · exact absurd hlost (not_lost_of_step hstep)

end Steps

section Isolation

variable {s s' : Fs}

def Event.isRemove : Event → Bool
  | .removeFile _ _ => true
  | _ => false

theorem step_separated {event : Event} (h : Separated True s) (hevent : ¬ event.isRemove)
    (hstep : Step s event s') : Separated True s' := by
  cases event with
  | allocInode type => exact step_allocInode h hstep
  | removeFile junk inum => exact absurd rfl hevent
  | writeFile junk now inum buf =>
      by_cases hbuf : buf.length < MAXFILE * BLOCK_SIZE
      · by_cases hinum : inum < INODE_NUM
        · exact step_writeFile h ⟨hinum, .inl trivial⟩ hbuf (fun hall => absurd trivial hall) hstep
        · -- get_inode gives NULL and nothing is done
          have hrun := (step_iff.mp hstep).1
          rw [Event.run, writeFile, if_neg (not_le.mpr hbuf), bind_ok (getInode_none (not_lt.mp hinum))] at hrun
          cases hrun
          exact h
      · have hrun := (step_iff.mp hstep).1
        rw [Event.run, writeFile, if_pos (not_lt.mp hbuf)] at hrun
        cases hrun

theorem reachable_separated
    (hr : Reachable (Guarded (fun _ event => ¬ event.isRemove) Step) Initial s) : Separated True s :=
  hr.invariant (Separated True) (fun _ => initial_separated) fun _ _ _ h hstep => step_separated h hstep.1 hstep.2

theorem read_your_write {inum : Nat} {buf : Bytes} {junk : Stack} {now : Times}
    (hr : Reachable (Guarded (fun _ event => ¬ event.isRemove) Step) Initial s)
    (hlive : s.Live inum) (hbuf : buf.length < MAXFILE * BLOCK_SIZE)
    (halloc : ¬ Lost (writeFile junk now inum buf s)) :
    ∃ s', writeFile junk now inum buf s = .ok () s' ∧
      (∀ stack, readFile stack inum s' = .ok (some buf) s') ∧
      ∀ j, j ≠ inum → s.Live j →
        (∃ content, ∀ stack, readFile stack j s = .ok (some content) s ∧
          readFile stack j s' = .ok (some content) s') ∧
        ∃ attr, ∀ a, getattr j a s = .ok attr s ∧ getattr j a s' = .ok attr s' := by
  have h := reachable_separated hr
  have hcounts : s.Counts True inum := ⟨hlive.1, .inl trivial⟩
  rcases h.writeFile junk now hcounts hbuf fun hall => absurd trivial hall with
    ⟨s', keep, hrun, hkeep, hwritten⟩ | hlost
  · have h' := hwritten.separated h hlive.1 hbuf hkeep
    refine ⟨s', hrun, fun stack => ?_, fun j hj hlivej => ?_⟩
    · rw [h'.readFile ⟨hlive.1, .inl trivial⟩ stack, hwritten.content]
    · have huntouched := hwritten.untouched h hlive.1 hj hlivej.1
      refine ⟨⟨s.content (s.inode j), fun stack => ⟨h.readFile ⟨hlivej.1, .inl trivial⟩ stack, ?_⟩⟩, ?_⟩
      · rw [h'.readFile ⟨hlivej.1, .inl trivial⟩ stack, huntouched.content ⟨hlivej.1, .inl trivial⟩]
      · refine ⟨_, fun a => ⟨getattr_run hlivej.1 a, ?_⟩⟩
        rw [getattr_run hlivej.1 a, huntouched.inode]
  · exact absurd hlost halloc

-- The store after inode_manager() on a disk whose unset memory is zero.
def startFs : Fs := (format fun _ => 0).setInode 1 ((Inode.ofBlock fun _ => 0).fresh T_DIR.toUInt16)

theorem initial_startFs : Initial startFs := by
  have htype : ((format fun _ => 0).inode 1).type = 0 := by
    rw [inode_format]
    decide +kernel
  have halloc : allocInode T_DIR (format fun _ => 0) = .ok 1 startFs := by
    have hrun : allocInodeFrom T_DIR.toUInt16 1 INODE_NUM (format fun _ => 0) =
        .ok 1 ((format fun _ => 0).setInode 1 (((format fun _ => 0).inode 1).fresh T_DIR.toUInt16)) :=
      allocInodeFrom_run le_rfl (by decide) (by decide) (by omega) htype
    rwa [inode_format] at hrun
  exact ⟨fun _ => 0, by rw [inodeManager, bind_ok halloc]; rfl⟩

-- Two files, of one block and of two blocks.
def twoFiles : List Event :=
  [.allocInode T_FILE, .allocInode T_FILE, .writeFile .zero ⟨1, 1, 1⟩ 2 [7, 8],
    .writeFile .zero ⟨1, 1, 1⟩ 3 (List.replicate 600 5)]

theorem read_your_write_files : ∃ s s', s.nblocks 3 = 2 ∧ writeFile .zero ⟨1, 1, 1⟩ 3 [9] s = .ok () s' ∧
    (∀ stack, readFile stack 3 s' = .ok (some [9]) s') ∧ ∀ stack, readFile stack 2 s' = .ok (some [7, 8]) s' := by
  have hrun : (execute (fun s event => if ¬ event.isRemove then step s event else none) startFs twoFiles).map
      (fun s => ((s.inode 2).type, (s.inode 3).type, s.nblocks 3,
        (finalState (writeFile .zero ⟨1, 1, 1⟩ 3 [9] s)).exhausted, s.content (s.inode 2))) =
      some (2, 2, 2, false, [7, 8]) := by
    decide +kernel
  obtain ⟨s, hs, hfields⟩ := Option.map_eq_some_iff.mp hrun
  simp only [Prod.mk.injEq] at hfields
  obtain ⟨htwo, hthree, hblocks, hleft, hcontent⟩ := hfields
  have hr : Reachable (Guarded (fun _ event => ¬ event.isRemove) Step) Initial s :=
    .executed (.start initial_startFs) hs
  have hlive : s.Live 3 := ⟨by decide, by rw [hthree]; decide⟩
  obtain ⟨s', hwrite, hread, hothers⟩ := read_your_write hr hlive (by decide) (ne_true_of_eq_false hleft)
  obtain ⟨⟨content, hsame⟩, -⟩ := hothers 2 (by decide) ⟨by decide, by rw [htwo]; decide⟩
  refine ⟨s, s', hblocks, hwrite, hread, fun stack => ?_⟩
  have hcounts : s.Counts True 2 := ⟨by decide, .inl trivial⟩
  have hbefore := (reachable_separated hr).readFile hcounts stack
  rw [(hsame stack).1, hcontent] at hbefore
  rw [(hsame stack).2, (EStateM.Result.ok.inj hbefore).1]

end Isolation

section Ownership

variable {s s' : Fs}

-- The blocks a live inode refers to: those of its size, and the indirect block when they
-- do not all fit in the inode.
def Fs.RefersTo (s : Fs) (inum : Nat) : Slot → Prop
  | .data k => s.Live inum ∧ k < s.nblocks inum
  | .indirect => s.Live inum ∧ NDIRECT < s.nblocks inum

def BlockOwnership (s : Fs) : Prop :=
  ∀ inum slot, s.RefersTo inum slot →
    FILEBLOCK ≤ s.ref inum slot ∧ s.ref inum slot < BLOCK_NUM ∧ s.usingBlocks (s.ref inum slot) = true ∧
      ∀ j other, s.RefersTo j other → s.ref j other = s.ref inum slot → j = inum ∧ other = slot

-- alloc_inode, and write_file and remove_file on inodes in use.
def Legal (s : Fs) : Event → Prop
  | .allocInode _ => True
  | .writeFile _ _ inum buf => s.Live inum ∧ buf.length < MAXFILE * BLOCK_SIZE
  | .removeFile _ inum => s.Live inum

instance (s : Fs) (event : Event) : Decidable (Legal s event) :=
  match event with
  | .allocInode _ => inferInstanceAs (Decidable True)
  | .writeFile _ _ inum buf =>
      inferInstanceAs (Decidable ((inum < INODE_NUM ∧ (s.inode inum).type ≠ 0) ∧ buf.length < MAXFILE * BLOCK_SIZE))
  | .removeFile _ inum => inferInstanceAs (Decidable (inum < INODE_NUM ∧ (s.inode inum).type ≠ 0))

-- A write_file that takes a file past its direct blocks finds in blocks[NDIRECT] either 0 or
-- a marked block of the file area that no live inode refers to.
def FreshIndirect (s : Fs) : Event → Prop
  | .writeFile _ _ inum buf =>
      s.nblocks inum ≤ NDIRECT → NDIRECT < blocksNum buf.length → (s.inode inum).indirect ≠ 0 →
        FILEBLOCK ≤ (s.inode inum).indirect.toNat ∧ (s.inode inum).indirect.toNat < BLOCK_NUM ∧
          s.usingBlocks (s.inode inum).indirect.toNat = true ∧
          ∀ j slot, s.RefersTo j slot → s.ref j slot ≠ (s.inode inum).indirect.toNat
  | _ => True

theorem forall_refersTo_iff (s : Fs) (b : Nat) : (∀ j slot, s.RefersTo j slot → s.ref j slot ≠ b) ↔
    ∀ j < INODE_NUM, (s.inode j).type ≠ 0 → (∀ k < s.nblocks j, s.ref j (.data k) ≠ b) ∧
      (NDIRECT < s.nblocks j → s.ref j .indirect ≠ b) := by
  constructor
  · intro h j hj htype
    exact ⟨fun k hk => h j (.data k) ⟨⟨hj, htype⟩, hk⟩, fun hn => h j .indirect ⟨⟨hj, htype⟩, hn⟩⟩
  · intro h j slot hrefers
    cases slot with
    | data k => exact (h j hrefers.1.1 hrefers.1.2).1 k hrefers.2
    | indirect => exact (h j hrefers.1.1 hrefers.1.2).2 hrefers.2

instance (s : Fs) (b : Nat) : Decidable (∀ j slot, s.RefersTo j slot → s.ref j slot ≠ b) :=
  decidable_of_iff _ (forall_refersTo_iff s b).symm

instance (s : Fs) (event : Event) : Decidable (FreshIndirect s event) :=
  match event with
  | .allocInode _ => inferInstanceAs (Decidable True)
  | .writeFile _ _ inum buf => inferInstanceAs (Decidable
      (s.nblocks inum ≤ NDIRECT → NDIRECT < blocksNum buf.length → (s.inode inum).indirect ≠ 0 →
        FILEBLOCK ≤ (s.inode inum).indirect.toNat ∧ (s.inode inum).indirect.toNat < BLOCK_NUM ∧
          s.usingBlocks (s.inode inum).indirect.toNat = true ∧
          ∀ j slot, s.RefersTo j slot → s.ref j slot ≠ (s.inode inum).indirect.toNat))
  | .removeFile _ _ => inferInstanceAs (Decidable True)

theorem refersTo_iff (inum : Nat) (slot : Slot) : s.RefersTo inum slot ↔ s.Refers False inum slot := by
  cases slot <;> simp [Fs.RefersTo, Fs.Refers, Fs.Counts, Fs.Live, Uses]

theorem Separated.blockOwnership (h : Separated False s) : BlockOwnership s := by
  intro inum slot hrefers
  rw [refersTo_iff] at hrefers
  have hmine := (h.owns inum hrefers.1).mine slot hrefers.2
  refine ⟨hmine.low, hmine.high, hmine.marked, fun j other hother heq => ?_⟩
  rw [refersTo_iff] at hother
  by_cases hj : j = inum
  · subst j
    exact ⟨rfl, (h.owns inum hrefers.1).inj other slot hother.2 hrefers.2 heq⟩
  · exact absurd ⟨j, other, hj, hother, heq⟩ hmine.apart

theorem indirectOk_of_fresh {junk : Stack} {now : Times} {inum : Nat} {buf : Bytes}
    (hfresh : FreshIndirect s (.writeFile junk now inum buf)) (hle : s.nblocks inum ≤ NDIRECT)
    (hlt : NDIRECT < blocksNum buf.length) : s.IndirectOk False inum := by
  by_cases hzero : (s.inode inum).indirect = 0
  · exact .inl hzero
  · obtain ⟨hlow, hhigh, hmarked, hapart⟩ := hfresh hle hlt hzero
    refine .inr ⟨hlow, hhigh, hmarked, ?_⟩
    rintro ⟨j, slot, hrefers, heq⟩
    exact hapart j slot ((refersTo_iff j slot).mpr hrefers) heq

theorem step_owned {event : Event} (h : Separated False s) (hlegal : Legal s event)
    (hfresh : FreshIndirect s event) (hstep : Step s event s') : Separated False s' := by
  cases event with
  | allocInode type => exact step_allocInode h hstep
  | writeFile junk now inum buf =>
      exact step_writeFile h ⟨hlegal.1.1, .inr hlegal.1.2⟩ hlegal.2 (fun _ => indirectOk_of_fresh hfresh) hstep
  | removeFile junk inum =>
      obtain ⟨s₁, hrun, hseparated⟩ := h.removeFile junk hlegal
      have heq := hrun.symm.trans (step_iff.mp hstep).1
      cases heq
      exact hseparated

theorem reachable_owned
    (hr : Reachable (Guarded (fun s event => Legal s event ∧ FreshIndirect s event) Step) Initial s) :
    Separated False s :=
  hr.invariant (Separated False) (fun _ => initial_separated)
    fun _ _ _ h hstep => step_owned h hstep.1.1 hstep.1.2 hstep.2

theorem block_ownership
    (hr : Reachable (Guarded (fun s event => Legal s event ∧ FreshIndirect s event) Step) Initial s) :
    BlockOwnership s :=
  (reachable_owned hr).blockOwnership

-- The first of the files has grown after the second one was written.
theorem block_ownership_files : ∃ s, s.RefersTo 2 (.data 1) ∧ s.RefersTo 3 (.data 1) ∧
    [s.ref 2 (.data 0), s.ref 2 (.data 1), s.ref 3 (.data 0), s.ref 3 (.data 1)] = [1035, 1038, 1036, 1037] ∧
      BlockOwnership s := by
  have hrun : (execute (fun s event => if Legal s event ∧ FreshIndirect s event then step s event else none)
      startFs (twoFiles ++ [.writeFile .zero ⟨1, 1, 1⟩ 2 (List.replicate 513 6)])).map
        (fun s => ((s.inode 2).type, (s.inode 3).type, s.nblocks 2, s.nblocks 3,
          [s.ref 2 (.data 0), s.ref 2 (.data 1), s.ref 3 (.data 0), s.ref 3 (.data 1)])) =
      some (2, 2, 2, 2, [1035, 1038, 1036, 1037]) := by
    decide +kernel
  obtain ⟨s, hs, hfields⟩ := Option.map_eq_some_iff.mp hrun
  simp only [Prod.mk.injEq] at hfields
  obtain ⟨htwo, hthree, hblocks, hblocks', hrefs⟩ := hfields
  exact ⟨s, ⟨⟨by decide, by rw [htwo]; decide⟩, by rw [hblocks]; decide⟩,
    ⟨⟨by decide, by rw [hthree]; decide⟩, by rw [hblocks']; decide⟩, hrefs,
    block_ownership (.executed (.start initial_startFs) hs)⟩

-- One byte more than the direct blocks hold.
def pastDirect : Bytes := List.replicate (NDIRECT * BLOCK_SIZE) 0 ++ [2]

-- A file with an indirect block is removed, and its inode is given to a new file: what
-- extent_server::create, put, remove and create do to the store. The root's content is
-- "a:2/", then "", then "b:2/".
def reuse : List Event :=
  [.allocInode T_FILE, .writeFile .zero ⟨1, 1, 1⟩ 1 [97, 58, 50, 47],
    .writeFile .zero ⟨1, 1, 1⟩ 2 pastDirect, .removeFile .zero 2,
    .writeFile .zero ⟨1, 1, 1⟩ 1 [], .allocInode T_FILE, .writeFile .zero ⟨1, 1, 1⟩ 1 [98, 58, 50, 47]]

-- The new file's block 100 and its indirect block are one block: the last byte of the
-- file, written there, has replaced the table's entry for block 100.
theorem reuse_run :
    (execute (fun s event => if Legal s event then step s event else none) startFs reuse).bind (fun s =>
      (if Legal s (.writeFile .zero ⟨1, 1, 1⟩ 2 pastDirect) then
        step s (.writeFile .zero ⟨1, 1, 1⟩ 2 pastDirect) else none).map fun s' =>
        (((s.inode 1).type, (s.inode 2).type, (s.inode 2).size),
          (s'.inode 2).type, (s'.inode 2).size, s'.ref 2 .indirect, s'.ref 2 (.data 100), (s'.blocks 2).byte 0)) =
      some ((1, 2, 0), 2, 51201, 1136, 2, 0) := by
  decide +kernel

-- The store before the write, and after it.
theorem reuse_states : ∃ s s', Reachable (Guarded Legal Step) Initial s ∧
    writeFile .zero ⟨1, 1, 1⟩ 2 pastDirect s = .ok () s' ∧ Reachable (Guarded Legal Step) Initial s' ∧
    ((s.inode 1).type = 1 ∧ (s.inode 2).type = 2 ∧ (s.inode 2).size = 0) ∧
    (s'.inode 2).type = 2 ∧ (s'.inode 2).size = 51201 ∧ s'.ref 2 .indirect = 1136 ∧ s'.ref 2 (.data 100) = 2 ∧
      (s'.blocks 2).byte 0 = 0 := by
  obtain ⟨s, hs, hwrite⟩ := Option.bind_eq_some_iff.mp reuse_run
  obtain ⟨s', hs', hfields⟩ := Option.map_eq_some_iff.mp hwrite
  simp only [Prod.mk.injEq] at hfields
  obtain ⟨hbefore, hafter⟩ := hfields
  have hr : Reachable (Guarded Legal Step) Initial s := Reachable.executed (.start initial_startFs) hs
  split at hs'
  · next hlegal =>
      have hstep : Step s (.writeFile .zero ⟨1, 1, 1⟩ 2 pastDirect) s' := hs'
      exact ⟨s, s', hr, (step_iff.mp hstep).1, hr.guarded _ hlegal hs', hbefore, hafter⟩
  · cases hs'

theorem block_ownership_lost : ∃ s, Reachable (Guarded Legal Step) Initial s ∧ ¬ BlockOwnership s := by
  obtain ⟨-, s, -, -, hr, -, htype, hsize, -, href, -⟩ := reuse_states
  refine ⟨s, hr, fun howned => ?_⟩
  have hrefers : s.RefersTo 2 (.data 100) := by
    refine ⟨⟨by decide, by rw [htype]; decide⟩, ?_⟩
    rw [Fs.nblocks, hsize]
    decide
  have hlow := (howned 2 (.data 100) hrefers).1
  rw [href] at hlow
  exact absurd hlow (by decide)

-- The last byte read back is that of block 2 of the disk.
theorem reuse_readFile (hsize : (s.inode 2).size = 51201) (hind : s.ref 2 .indirect = 1136)
    (href : s.ref 2 (.data 100) = 2) (hbyte : (s.blocks 2).byte 0 = 0) (junk : Stack) :
    ∃ out, readFile junk 2 s = .ok (some (out ++ [0])) s ∧ out.length = 51200 := by
  have hind' : (s.inode 2).indirect.toNat = 1136 := hind
  have hid : s.blockid (s.inode 2) 100 = 2 := href
  have hok : (s.inode 2).indirect ≠ 0 ∧ (s.inode 2).indirect.toNat < BLOCK_NUM := by
    refine ⟨fun hzero => ?_, by rw [hind']; decide⟩
    rw [hzero] at hind'
    cases hind'
  have hsize' : (s.inode 2).size.toNat = 51200 + 1 := by rw [hsize]; rfl
  have hlast : (s.readBuf (s.inode 2) junk (51200 / BLOCK_SIZE + 1)).byte (51200 % BLOCK_SIZE) = 0 := by
    rw [show 51200 / BLOCK_SIZE = 100 from rfl, readBuf_of_lt (by rw [hid]; decide), hid]
    exact hbyte
  refine ⟨(List.range 51200).map fun q => (s.readBuf (s.inode 2) junk (q / BLOCK_SIZE + 1)).byte (q % BLOCK_SIZE), ?_,
    (List.length_map _).trans List.length_range⟩
  rw [readFile_out junk (by decide) rfl (by rw [hsize']; decide) fun _ => hok, Fs.readOut, hsize', List.range_succ,
    List.map_append, List.map_singleton, hlast]

end Ownership

end CseLabs.InodeManager
