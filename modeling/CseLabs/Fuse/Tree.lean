import CseLabs.ExtentService.Keeper
import CseLabs.Fuse
import CseLabs.Yfs.ByteArray

namespace CseLabs.Fuse

open InodeManager (Bytes Times INODE_NUM NDIRECT BLOCK_SIZE BLOCK_NUM FILEBLOCK T_DIR T_FILE T_SYMLINK)
open Directory (Dirent COLON SLASH encode filename)
open ExtentService (Record used)
open Yfs (FileOp)

section Tree

-- What the file system is for.
inductive Node
  | file (data : Bytes) (times : Times)
  | dir (entries : List Dirent) (times : Times)
  | symlink (target : Bytes) (times : Times)

abbrev Tree := Nat → Option Node

def Node.type : Node → UInt32
  | .file _ _ => T_FILE
  | .dir _ _ => T_DIR
  | .symlink _ _ => T_SYMLINK

-- What the inode of the node holds.
def Node.content : Node → Bytes
  | .file data _ => data
  | .dir entries _ => encode entries
  | .symlink target _ => target

def Node.times : Node → Times
  | .file _ times => times
  | .dir _ times => times
  | .symlink _ times => times

def Node.mode : Node → Nat
  | .file _ _ => S_IFREG ||| 0o666
  | .dir _ _ => S_IFDIR ||| 0o777
  | .symlink _ _ => S_IFLNK ||| 0o777

def Node.nlink : Node → Nat
  | .dir _ _ => 2
  | _ => 1

-- Directories are shown with size 0.
def Node.size : Node → Nat
  | .file data _ => data.length
  | .dir _ _ => 0
  | .symlink target _ => target.length

def Node.stat (ino : Nat) (node : Node) : Stat where
  ino := ino
  mode := node.mode
  nlink := node.nlink
  atime := node.times.atime.toNat
  mtime := node.times.mtime.toNat
  ctime := node.times.ctime.toNat
  size := node.size

def entriesOf : Option Node → List Dirent
  | some (.dir entries _) => entries
  | _ => []

def dataOf : Option Node → Bytes
  | some (.file data _) => data
  | _ => []

def targetOf : Option Node → Bytes
  | some (.symlink target _) => target
  | _ => []

def Tree.entries (t : Tree) (ino : Nat) : List Dirent := entriesOf (t ino)

def Tree.data (t : Tree) (ino : Nat) : Bytes := dataOf (t ino)

def Tree.target (t : Tree) (ino : Nat) : Bytes := targetOf (t ino)

def Tree.find (t : Tree) (parent : Nat) (name : Bytes) : Option Nat :=
  ((t.entries parent).find? fun e => e.name = name).map Dirent.inum

-- The least inode that is free.
def Tree.free (t : Tree) : Option Nat := (List.range' 1 (INODE_NUM - 1)).find? fun i => (t i).isNone

end Tree

section Service

variable (t : Tree) (lib : Libfuse) (now : Times)

def Tree.attr (ino : Nat) : Reply := (t ino).elim (.err .ENOENT) fun node => .attr (node.stat ino)

def Tree.entry (answer : EntryParam → Reply) (ino : Nat) : Reply :=
  (t ino).elim (.err .ENOENT) fun node => answer ⟨ino, node.stat ino⟩

def Tree.write (ino : Nat) (op : FileOp) : Tree :=
  Function.update t ino (some (.file (op.reference (t.data ino)).1 now))

def Tree.setattr (ino size : Nat) (toSet : BitVec 32) : Tree :=
  if toSet &&& lib.FUSE_SET_ATTR_SIZE ≠ 0 then t.write now ino (.setattr size) else t

-- A new node under a new name.
def Tree.add (parent : Nat) (name : Bytes) (id : Nat) (node : Node) : Tree :=
  Function.update (Function.update t id (some node)) parent (some (.dir (t.entries parent ++ [⟨name, id⟩]) now))

def Tree.make (answer : EntryParam → Reply) (parent : Nat) (name : Bytes) (node : Node) : Reply × Tree :=
  match t.find parent name, t.free with
  | some _, _ => (.err .EEXIST, t)
  | none, some id => (answer ⟨id, node.stat id⟩, t.add now parent name id node)
  | none, none => (.err .ENOENT, t)

def Tree.remove (parent : Nat) (name : Bytes) (id : Nat) : Tree :=
  Function.update (Function.update t id none) parent
    (some (.dir ((t.entries parent).filter fun e => e.name ≠ name) now))

def Tree.unlink (parent : Nat) (name : Bytes) : Reply × Tree :=
  match t.find parent name with
  | some id => (.err .zero, t.remove now parent name id)
  | none => (.err .ENOENT, t)

def Tree.readdir (ino size off : Nat) : Reply :=
  match t ino with
  | some (.dir entries _) => .buf (replyBufLimited (dirbuf lib entries) off size)
  | _ => .err .ENOTDIR

-- The requests on the tree. The times of a new file or directory are 0.
def Tree.serve : Request → Reply × Tree
  | .getattr ino => (t.attr ino, t)
  | .setattr ino size toSet =>
      if touches lib toSet then ((t.setattr lib now ino size toSet).attr ino, t.setattr lib now ino size toSet)
      else (.err .ENOSYS, t)
  | .read ino size off => (fileReply ((FileOp.read size off).reference (t.data ino)).2, t)
  | .write ino buf off => (.write buf.length, t.write now ino (.write off buf))
  | .create parent name => t.make now .create parent name (.file [] ⟨0, 0, 0⟩)
  | .mknod parent name => t.make now .entry parent name (.file [] ⟨0, 0, 0⟩)
  | .lookup parent name => ((t.find parent name).elim (.err .ENOENT) (t.entry .entry), t)
  | .readdir ino size off => (t.readdir lib ino size off, t)
  | .openFile _ => (.opened, t)
  | .mkdir parent name => t.make now .entry parent name (.dir [] ⟨0, 0, 0⟩)
  | .unlink parent name => t.unlink now parent name
  | .symlink link parent name => t.make now .entry parent name (.symlink link now)
  | .readlink ino => (.readlink (t.target ino), t)
  | .statfs => (.statfs 255 512, t)

-- yfs_client() leaves an empty root.
def Tree.root : Tree := Function.update t 1 (some (.dir [] now))

end Service

section Guard

def LIMIT : Nat := NDIRECT * BLOCK_SIZE
def CAPACITY : Nat := BLOCK_NUM - FILEBLOCK

def Node.record (node : Node) : Record := ⟨node.type.toUInt16, node.content, node.times⟩

def Tree.record (t : Tree) (id : Nat) : Record := (t id).elim {} Node.record

-- No content is past the direct blocks of its inode, and all of them have their blocks.
def Tree.Fits (t : Tree) : Prop :=
  (∀ id < INODE_NUM, (t.record id).content.length ≤ LIMIT) ∧ used t.record ≤ CAPACITY

instance (t : Tree) : Decidable t.Fits := inferInstanceAs (Decidable (_ ∧ _))

-- The separators of the directory format are not in the name, and the name is a string of C.
def Proper (name : Bytes) : Prop := name ≠ [] ∧ COLON ∉ name ∧ SLASH ∉ name ∧ 0 ∉ name

instance (name : Bytes) : Decidable (Proper name) := inferInstanceAs (Decidable (_ ∧ _))

-- The name is not in the text of an entry in front of its own.
def Clear (entries : List Dirent) (name : Bytes) : Prop :=
  ∀ d ∈ entries.takeWhile fun d => decide (d.name ≠ name), ¬name <:+: d.name ∧ ¬name <:+: filename d.inum

instance (entries : List Dirent) (name : Bytes) : Decidable (Clear entries name) :=
  inferInstanceAs (Decidable (∀ d ∈ _, _))

def Tree.Is (t : Tree) (ino : Nat) (type : UInt32) : Prop := (t ino).map Node.type = some type

instance (t : Tree) (ino : Nat) (type : UInt32) : Decidable (t.Is ino type) := inferInstanceAs (Decidable (_ = _))

-- A name can be made: there is an inode for it, unless it exists.
def Tree.Makes (t : Tree) (parent : Nat) (name : Bytes) : Prop :=
  t.Is parent T_DIR ∧ Proper name ∧ (t.find parent name = none → t.free ≠ none)

instance (t : Tree) (parent : Nat) (name : Bytes) : Decidable (t.Makes parent name) :=
  inferInstanceAs (Decidable (_ ∧ _))

-- Requests for inodes that exist and are of the right kind.
def Tree.Accepts (t : Tree) (lib : Libfuse) : Request → Prop
  | .getattr ino => t ino ≠ none
  | .setattr ino _ toSet =>
      touches lib toSet → t ino ≠ none ∧ (toSet &&& lib.FUSE_SET_ATTR_SIZE ≠ 0 → t.Is ino T_FILE)
  | .read ino _ _ => t.Is ino T_FILE
  | .write ino _ _ => t.Is ino T_FILE
  | .create parent name => t.Makes parent name
  | .mknod parent name => t.Makes parent name
  | .lookup parent _ => t.Is parent T_DIR
  | .readdir ino _ _ => t ino ≠ none
  | .openFile _ => True
  | .mkdir parent name => t.Makes parent name
  | .unlink parent name => t.Is parent T_DIR ∧ t.find parent name ≠ none ∧ Clear (t.entries parent) name
  | .symlink link parent name => t.Makes parent name ∧ 0 ∉ link
  | .readlink ino => t.Is ino T_SYMLINK
  | .statfs => True

instance (t : Tree) (lib : Libfuse) (req : Request) : Decidable (t.Accepts lib req) :=
  match req with
  | .getattr ino => inferInstanceAs (Decidable (t ino ≠ none))
  | .setattr ino _ toSet => inferInstanceAs (Decidable (touches lib toSet → t ino ≠ none ∧
      (toSet &&& lib.FUSE_SET_ATTR_SIZE ≠ 0 → t.Is ino T_FILE)))
  | .read ino _ _ => inferInstanceAs (Decidable (t.Is ino T_FILE))
  | .write ino _ _ => inferInstanceAs (Decidable (t.Is ino T_FILE))
  | .create parent name => inferInstanceAs (Decidable (t.Makes parent name))
  | .mknod parent name => inferInstanceAs (Decidable (t.Makes parent name))
  | .lookup parent _ => inferInstanceAs (Decidable (t.Is parent T_DIR))
  | .readdir ino _ _ => inferInstanceAs (Decidable (t ino ≠ none))
  | .openFile _ => inferInstanceAs (Decidable True)
  | .mkdir parent name => inferInstanceAs (Decidable (t.Makes parent name))
  | .unlink parent name => inferInstanceAs (Decidable (t.Is parent T_DIR ∧ t.find parent name ≠ none ∧
      Clear (t.entries parent) name))
  | .symlink link parent name => inferInstanceAs (Decidable (t.Makes parent name ∧ 0 ∉ link))
  | .readlink ino => inferInstanceAs (Decidable (t.Is ino T_SYMLINK))
  | .statfs => inferInstanceAs (Decidable True)

end Guard

section Kinds

variable {t : Tree} {ino : Nat}

theorem Tree.Is.node {type : UInt32} (h : t.Is ino type) : ∃ node, t ino = some node ∧ node.type = type :=
  Option.map_eq_some_iff.mp h

theorem Tree.Is.ne_none {type : UInt32} (h : t.Is ino type) : t ino ≠ none := by
  obtain ⟨node, hnode, -⟩ := h.node
  rw [hnode]
  exact Option.some_ne_none node

theorem Tree.Is.file (h : t.Is ino T_FILE) : ∃ times, t ino = some (.file (t.data ino) times) := by
  obtain ⟨node, hnode, htype⟩ := h.node
  rw [Tree.data, hnode]
  cases node with
  | file data times => exact ⟨times, rfl⟩
  | dir entries times => exact absurd htype (by decide : T_DIR ≠ T_FILE)
  | symlink target times => exact absurd htype (by decide : T_SYMLINK ≠ T_FILE)

theorem Tree.Is.dir (h : t.Is ino T_DIR) : ∃ times, t ino = some (.dir (t.entries ino) times) := by
  obtain ⟨node, hnode, htype⟩ := h.node
  rw [Tree.entries, hnode]
  cases node with
  | file data times => exact absurd htype (by decide : T_FILE ≠ T_DIR)
  | dir entries times => exact ⟨times, rfl⟩
  | symlink target times => exact absurd htype (by decide : T_SYMLINK ≠ T_DIR)

theorem Tree.Is.symlink (h : t.Is ino T_SYMLINK) : ∃ times, t ino = some (.symlink (t.target ino) times) := by
  obtain ⟨node, hnode, htype⟩ := h.node
  rw [Tree.target, hnode]
  cases node with
  | file data times => exact absurd htype (by decide : T_FILE ≠ T_SYMLINK)
  | dir entries times => exact absurd htype (by decide : T_DIR ≠ T_SYMLINK)
  | symlink target times => exact ⟨times, rfl⟩

theorem Tree.Is.unique {type type' : UInt32} (h : t.Is ino type) (h' : t.Is ino type') : type = type' :=
  Option.some.inj (h.symm.trans h')

theorem entries_update (t : Tree) (ino : Nat) (node : Option Node) (p : Nat) :
    Tree.entries (Function.update t ino node) p = if p = ino then entriesOf node else t.entries p := by
  rw [Tree.entries, Function.update_apply, apply_ite entriesOf, Tree.entries]

theorem target_update (t : Tree) (ino : Nat) (node : Option Node) (p : Nat) :
    Tree.target (Function.update t ino node) p = if p = ino then targetOf node else t.target p := by
  rw [Tree.target, Function.update_apply, apply_ite targetOf, Tree.target]

end Kinds

section Shape

-- The names of a directory are different and have inodes, and no inode has two names.
structure Tree.Ok (t : Tree) : Prop where
  bound : ∀ id, t id ≠ none → id < INODE_NUM
  root : t.Is 1 T_DIR
  proper : ∀ p, ∀ e ∈ t.entries p, Proper e.name
  nodup : ∀ p, ((t.entries p).map Dirent.name).Nodup
  live : ∀ p, ∀ e ∈ t.entries p, t e.inum ≠ none ∧ e.inum ≠ 1 ∧ e.inum ≠ p
  unique : ∀ p d q e, d ∈ t.entries p → e ∈ t.entries q → d.inum = e.inum → p = q ∧ d = e
  targets : ∀ id, 0 ∉ t.target id
  fits : t.Fits

variable {t t' : Tree} {now : Times} {ino parent id : Nat} {name : Bytes} {node : Node}

-- Entries go, and the inodes of the others stay.
theorem Tree.Ok.narrow (h : t.Ok) (hbound : ∀ id, t' id ≠ none → t id ≠ none) (hroot : t'.Is 1 T_DIR)
    (hentries : ∀ p, (t'.entries p).Sublist (t.entries p)) (hlive : ∀ p, ∀ e ∈ t'.entries p, t' e.inum ≠ none)
    (htargets : ∀ id, 0 ∉ t'.target id) (hfits : t'.Fits) : t'.Ok where
  bound id hid := h.bound id (hbound id hid)
  root := hroot
  proper p e he := h.proper p e ((hentries p).subset he)
  nodup p := (h.nodup p).sublist ((hentries p).map Dirent.name)
  live p e he := ⟨hlive p e he, (h.live p e ((hentries p).subset he)).2⟩
  unique p d q e hd he := h.unique p d q e ((hentries p).subset hd) ((hentries q).subset he)
  targets := htargets
  fits := hfits

theorem Tree.Ok.write (h : t.Ok) {op : FileOp} (hfile : t.Is ino T_FILE) (hfits : (t.write now ino op).Fits) :
    (t.write now ino op).Ok := by
  obtain ⟨times, hnode⟩ := hfile.file
  have hentries : ∀ p, (t.write now ino op).entries p = t.entries p := by
    intro p
    rw [Tree.write, entries_update]
    split
    · next he => rw [he, Tree.entries, hnode]; rfl
    · rfl
  have hsome : ∀ id, t.write now ino op id = none ↔ t id = none := by
    intro id
    rw [Tree.write, Function.update_apply]
    split
    · next he => simp [he, hnode]
    · rfl
  have hne : (1 : Nat) ≠ ino := by
    rintro rfl
    exact absurd (hfile.unique h.root) (by decide)
  refine h.narrow (fun id hid hnone => hid ((hsome id).mpr hnone)) ?_ (fun p => by rw [hentries]) (fun p e he => ?_)
    (fun id => ?_) hfits
  · rw [Tree.Is, Tree.write, Function.update_of_ne hne]
    exact h.root
  · rw [hentries] at he
    exact fun hnone => (h.live p e he).1 ((hsome e.inum).mp hnone)
  · rw [Tree.write, target_update]
    split
    · exact List.not_mem_nil
    · exact h.targets id

theorem Tree.Ok.start (h : t.Ok) (hfits : (t.root now).Fits) : (t.root now).Ok := by
  have hsome : ∀ id, t.root now id = none ↔ t id = none := by
    intro id
    rw [Tree.root, Function.update_apply]
    split
    · next he => simp [he, h.root.ne_none]
    · rfl
  refine h.narrow (fun id hid hnone => hid ((hsome id).mpr hnone)) ?_ (fun p => ?_) (fun p e he => ?_)
    (fun id => ?_) hfits
  · rw [Tree.Is, Tree.root, Function.update_self]
    rfl
  · rw [Tree.root, entries_update]
    split
    · exact List.nil_sublist _
    · exact List.Sublist.refl _
  · rw [Tree.root, entries_update] at he
    split at he
    · exact absurd he List.not_mem_nil
    · exact fun hnone => (h.live p e he).1 ((hsome e.inum).mp hnone)
  · rw [Tree.root, target_update]
    split
    · exact List.not_mem_nil
    · exact h.targets id

-- An entry of the directory, and the rest of it.
theorem Tree.Ok.find_eq_some (h : t.Ok) (hfind : t.find parent name = some id) :
    ∃ before after, t.entries parent = before ++ ⟨name, id⟩ :: after ∧ name ∉ before.map Dirent.name ∧
      (t.entries parent).filter (fun e => decide (e.name ≠ name)) = before ++ after := by
  obtain ⟨e, hfound, rfl⟩ := Option.map_eq_some_iff.mp hfind
  obtain ⟨hname, before, after, hsplit, hbefore⟩ := List.find?_eq_some_iff_append.mp hfound
  obtain rfl : e.name = name := of_decide_eq_true hname
  have hnodup := h.nodup parent
  rw [hsplit, List.map_append, List.map_cons, List.nodup_middle, List.nodup_cons, List.mem_append, not_or] at hnodup
  have hkeep : ∀ l : List Dirent, e.name ∉ l.map Dirent.name → l.filter (fun d => decide (d.name ≠ e.name)) = l := by
    intro l hl
    refine List.filter_eq_self.mpr fun d hd => decide_eq_true fun heq => hl ?_
    rw [← heq]
    exact List.mem_map_of_mem hd
  refine ⟨before, after, hsplit, hnodup.1.1, ?_⟩
  rw [hsplit, List.filter_append, List.filter_cons_of_neg (by simp), hkeep before hnodup.1.1, hkeep after hnodup.1.2]

theorem Tree.Ok.remove (h : t.Ok) (hdir : t.Is parent T_DIR) (hfind : t.find parent name = some id)
    (hfits : (t.remove now parent name id).Fits) : (t.remove now parent name id).Ok := by
  obtain ⟨before, after, hsplit, -, hfilter⟩ := h.find_eq_some hfind
  have hmem : (⟨name, id⟩ : Dirent) ∈ t.entries parent := by
    rw [hsplit]
    exact List.mem_append_right _ List.mem_cons_self
  obtain ⟨-, hroot, hne⟩ := h.live parent _ hmem
  have hentries : ∀ p, ((t.remove now parent name id).entries p).Sublist (t.entries p) := by
    intro p
    rw [Tree.remove, entries_update, entries_update]
    split
    · next he => rw [he]; exact List.filter_sublist
    · split
      · exact List.nil_sublist _
      · exact List.Sublist.refl _
  refine h.narrow (fun j hj => ?_) ?_ hentries (fun p e he => ?_) (fun j => ?_) hfits
  · rw [Tree.remove, Function.update_apply, Function.update_apply] at hj
    split at hj
    · next he => rw [he]; exact hdir.ne_none
    · split at hj
      · exact absurd rfl hj
      · exact hj
  · rw [Tree.Is, Tree.remove, Function.update_apply, Function.update_apply]
    split
    · rfl
    · rw [if_neg (Ne.symm hroot)]
      exact h.root
  · -- an entry that stays has another inode
    have hold := (hentries p).subset he
    have hother : e.inum ≠ id := by
      intro heq
      obtain ⟨rfl, rfl⟩ := h.unique p e parent ⟨name, id⟩ hold hmem heq
      rw [Tree.remove, entries_update, if_pos rfl] at he
      exact absurd (List.mem_filter.mp he).2 (by simp)
    rw [Tree.remove, Function.update_apply, Function.update_apply, if_neg hother]
    split
    · exact Option.some_ne_none _
    · exact (h.live p e hold).1
  · rw [Tree.remove, target_update, target_update]
    split
    · exact List.not_mem_nil
    · split
      · exact List.not_mem_nil
      · exact h.targets j

theorem free_eq_some (hfree : t.free = some id) : 1 ≤ id ∧ id < INODE_NUM ∧ t id = none := by
  obtain ⟨hnone, hmem, -⟩ := List.find?_range'_eq_some.mp hfree
  have hnum : INODE_NUM = 1024 := rfl
  have hrange := List.mem_range'_1.mp hmem
  exact ⟨hrange.1, by omega, Option.isNone_iff_eq_none.mp hnone⟩

theorem find_eq_none : t.find parent name = none ↔ name ∉ (t.entries parent).map Dirent.name := by
  rw [Tree.find, Option.map_eq_none_iff, List.find?_eq_none, List.mem_map]
  simp

-- The entries of a tree with a new name.
theorem mem_entries_add (hnone : t id = none) (hnew : entriesOf (some node) = []) (hne : parent ≠ id) {p : Nat}
    {e : Dirent} : e ∈ (t.add now parent name id node).entries p ↔ e ∈ t.entries p ∨ p = parent ∧ e = ⟨name, id⟩ := by
  rw [Tree.add, entries_update, entries_update]
  by_cases hp : p = parent
  · subst hp
    rw [if_pos rfl, entriesOf, List.mem_append, List.mem_singleton]
    simp
  · rw [if_neg hp]
    by_cases hid : p = id
    · subst hid
      rw [if_pos rfl, hnew, Tree.entries, hnone]
      simp [entriesOf, hp]
    · simp [hid, hp]

theorem Tree.Ok.add (h : t.Ok) (hdir : t.Is parent T_DIR) (hname : Proper name) (hfind : t.find parent name = none)
    (hfree : t.free = some id) (hnew : entriesOf (some node) = []) (htarget : 0 ∉ targetOf (some node))
    (hfits : (t.add now parent name id node).Fits) : (t.add now parent name id node).Ok := by
  obtain ⟨hlo, hid, hnone⟩ := free_eq_some hfree
  have hne : parent ≠ id := by
    rintro rfl
    exact hdir.ne_none hnone
  have hroot : (1 : Nat) ≠ id := by
    rintro rfl
    exact h.root.ne_none hnone
  have hmem : ∀ p e, e ∈ (t.add now parent name id node).entries p ↔
      e ∈ t.entries p ∨ p = parent ∧ e = ⟨name, id⟩ := fun p e => mem_entries_add hnone hnew hne
  have hkept : ∀ j, t j ≠ none → t.add now parent name id node j ≠ none := by
    intro j hj
    rw [Tree.add, Function.update_apply, Function.update_apply]
    split
    · exact Option.some_ne_none _
    · split
      · exact Option.some_ne_none _
      · exact hj
  refine ⟨fun j hj => ?_, ?_, fun p e he => ?_, fun p => ?_, fun p e he => ?_, fun p d q e hd he heq => ?_, fun j => ?_,
    hfits⟩
  · rw [Tree.add, Function.update_apply, Function.update_apply] at hj
    split at hj
    · next he => rw [he]; exact h.bound parent hdir.ne_none
    · split at hj
      · next he => rw [he]; exact hid
      · exact h.bound j hj
  · rw [Tree.Is, Tree.add, Function.update_apply]
    split
    · rfl
    · rw [Function.update_of_ne hroot]
      exact h.root
  · rcases (hmem p e).mp he with he | ⟨-, rfl⟩
    · exact h.proper p e he
    · exact hname
  · rw [Tree.add, entries_update, entries_update]
    by_cases hp : p = parent
    · rw [if_pos hp, entriesOf, List.map_append, List.map_singleton]
      refine List.nodup_append.mpr ⟨h.nodup parent, List.nodup_singleton _, fun a ha b hb => ?_⟩
      rw [List.mem_singleton.mp hb]
      rintro rfl
      exact find_eq_none.mp hfind ha
    · rw [if_neg hp]
      split
      · rw [hnew]
        exact List.nodup_nil
      · exact h.nodup p
  · rcases (hmem p e).mp he with he | ⟨rfl, rfl⟩
    · exact ⟨hkept _ (h.live p e he).1, (h.live p e he).2⟩
    · refine ⟨?_, hroot.symm, hne.symm⟩
      rw [Tree.add, Function.update_of_ne hne.symm, Function.update_self]
      exact Option.some_ne_none _
  · rcases (hmem p d).mp hd with hold | ⟨rfl, rfl⟩
    · rcases (hmem q e).mp he with he | ⟨rfl, rfl⟩
      · exact h.unique p d q e hold he heq
      · have hold := (h.live p d hold).1
        rw [heq] at hold
        exact absurd hnone hold
    · rcases (hmem q e).mp he with he | ⟨rfl, rfl⟩
      · have hold := (h.live q e he).1
        rw [← heq] at hold
        exact absurd hnone hold
      · exact ⟨rfl, rfl⟩
  · rw [Tree.add, target_update, target_update]
    split
    · exact List.not_mem_nil
    · split
      · exact htarget
      · exact h.targets j

theorem Tree.Ok.make (h : t.Ok) {answer : EntryParam → Reply} (hmakes : t.Makes parent name)
    (hnew : entriesOf (some node) = []) (htarget : 0 ∉ targetOf (some node))
    (hfits : (t.make now answer parent name node).2.Fits) : (t.make now answer parent name node).2.Ok := by
  obtain ⟨hdir, hname, -⟩ := hmakes
  rw [Tree.make] at hfits ⊢
  split
  · exact h
  · next id hfind hfree =>
      rw [hfind, hfree] at hfits
      exact h.add hdir hname hfind hfree hnew htarget hfits
  · exact h

-- The requests keep the shape of the tree.
theorem Tree.Ok.serve (h : t.Ok) {lib : Libfuse} {req : Request} (haccepts : t.Accepts lib req)
    (hfits : (t.serve lib now req).2.Fits) : (t.serve lib now req).2.Ok := by
  cases req with
  | getattr ino => exact h
  | setattr ino size toSet =>
      rw [Tree.serve] at hfits ⊢
      split
      · next htouches =>
          rw [if_pos htouches] at hfits
          show (t.setattr lib now ino size toSet).Ok
          have hfits : (t.setattr lib now ino size toSet).Fits := hfits
          rw [Tree.setattr] at hfits ⊢
          split
          · next hsize =>
              rw [if_pos hsize] at hfits
              exact h.write ((haccepts htouches).2 hsize) hfits
          · exact h
      · exact h
  | read ino size off => exact h
  | write ino buf off => exact h.write haccepts hfits
  | create parent name => exact h.make haccepts rfl List.not_mem_nil hfits
  | mknod parent name => exact h.make haccepts rfl List.not_mem_nil hfits
  | lookup parent name => exact h
  | readdir ino size off => exact h
  | openFile ino => exact h
  | mkdir parent name => exact h.make haccepts rfl List.not_mem_nil hfits
  | unlink parent name =>
      obtain ⟨hdir, hsome, -⟩ := haccepts
      rw [Tree.serve, Tree.unlink] at hfits ⊢
      split
      · next id hfind =>
          rw [hfind] at hfits
          exact h.remove hdir hfind hfits
      · exact h
  | symlink link parent name => exact h.make haccepts.1 rfl haccepts.2 hfits
  | readlink ino => exact h
  | statfs => exact h

end Shape

end CseLabs.Fuse
