import CseLabs.Fuse.Tree
import CseLabs.Yfs.NameMap

namespace CseLabs.Fuse

open InodeManager (Bytes Times Fs INODE_NUM T_DIR T_FILE T_SYMLINK blocksNum Kept)
open Directory (Dirent Plain encode entry)
open ExtentService (System Manager Env Record Keeper Holds fresh used stored linked firstFree diskManager diskRecord
  eraseEntry Named Empty emptySystem someEnv)
open Yfs (FileOp Make)

section Records

variable {t : Tree} {id : Nat} {node : Node}

theorem record_some (h : t id = some node) : t.record id = node.record := by
  rw [Tree.record, h]
  rfl

theorem record_none (h : t id = none) : t.record id = {} := by
  rw [Tree.record, h]
  rfl

theorem record_update (t : Tree) (id : Nat) (node : Option Node) :
    Tree.record (Function.update t id node) = Function.update t.record id (node.elim {} Node.record) := by
  funext j
  by_cases hj : j = id
  · rw [hj, Tree.record, Function.update_self, Function.update_self]
  · rw [Tree.record, Function.update_of_ne hj, Function.update_of_ne hj, Tree.record]

theorem type_ne_zero (node : Node) : node.record.type ≠ 0 := by
  cases node with
  | file data times => exact (by decide : T_FILE.toUInt16 ≠ 0)
  | dir entries times => exact (by decide : T_DIR.toUInt16 ≠ 0)
  | symlink target times => exact (by decide : T_SYMLINK.toUInt16 ≠ 0)

theorem attr_type (node : Node) : node.record.attr.type = node.type := by
  cases node with
  | file data times => exact (by decide : T_FILE.toUInt16.toInt16.toInt32.toUInt32 = T_FILE)
  | dir entries times => exact (by decide : T_DIR.toUInt16.toInt16.toInt32.toUInt32 = T_DIR)
  | symlink target times => exact (by decide : T_SYMLINK.toUInt16.toInt16.toInt32.toUInt32 = T_SYMLINK)

theorem record_type_ne_zero (h : t id ≠ none) : (t.record id).type ≠ 0 := by
  obtain ⟨node, hnode⟩ := Option.ne_none_iff_exists'.mp h
  rw [record_some hnode]
  exact type_ne_zero node

theorem firstFree_record (t : Tree) : firstFree (fun i => (t.record i).type) = t.free := by
  refine List.find?_congr fun i _ => ?_
  show ((t.record i).type == 0) = (t i).isNone
  cases h : t i with
  | none =>
      rw [record_none h]
      rfl
  | some node =>
      rw [record_some h]
      simpa using type_ne_zero node

-- The content of a directory.
theorem record_dir (h : t.Is id T_DIR) : (t.record id).content = encode (t.entries id) ∧
    (t.record id).type = T_DIR.toUInt16 := by
  obtain ⟨times, hnode⟩ := h.dir
  rw [record_some hnode]
  exact ⟨rfl, rfl⟩

theorem record_file (h : t.Is id T_FILE) : (t.record id).content = t.data id ∧
    (t.record id).type = T_FILE.toUInt16 := by
  obtain ⟨times, hnode⟩ := h.file
  rw [record_some hnode]
  exact ⟨rfl, rfl⟩

theorem Tree.Ok.lt (h : t.Ok) (hid : t id ≠ none) : id < 2 ^ 31 := (h.bound id hid).trans (by decide)

theorem Tree.Ok.plain (h : t.Ok) (p : Nat) : Plain (t.entries p) := by
  intro e he
  exact ⟨(h.proper p e he).2.1, (h.lt (h.live p e he).1).trans (by decide)⟩

theorem Tree.Ok.lookup (h : t.Ok) (hdir : t.Is id T_DIR) (name : Bytes) :
    Directory.lookup (t.record id).content name = some (t.find id name) := by
  rw [(record_dir hdir).1, Directory.lookup_encode (h.plain id)]
  rfl

theorem Tree.Fits.content (h : t.Fits) (hid : id < INODE_NUM) : (t.record id).content.length ≤ LIMIT := h.1 id hid

end Records

section Handlers

variable {σ : Type} {n : Nat} {m : Manager σ} {record : σ → Nat → Record} {ok : σ → Prop} {s : System σ n} {t : Tree}
  {c : Fin n} {ino : Nat} {node : Node}

-- getattr asks for the attributes two or three times.
theorem getattr_shows (hs : Holds record ok s t.record fresh) (ht : t.Ok) (c : Fin n) (hnode : t ino = some node) :
    (getattr s c ino).1 = node.stat ino ∧ Holds record ok (getattr s c ino).2 t.record fresh := by
  have hne : t ino ≠ none := by simp [hnode]
  have hino := ht.lt hne
  have hsize : (UInt32.ofNat node.content.length).toNat = node.content.length := by
    have hlimit := ht.fits.content (ht.bound ino hne)
    rw [record_some hnode] at hlimit
    exact UInt32.toNat_ofNat_of_lt' (hlimit.trans_lt (by decide))
  obtain ⟨hattr₁, hs₁⟩ := hs.clientGetattr c hino
  obtain ⟨hattr₂, hs₂⟩ := hs₁.clientGetattr c hino
  obtain ⟨hattr₃, hs₃⟩ := hs₂.clientGetattr c hino
  rw [record_some hnode] at hattr₁ hattr₂ hattr₃
  simp only [getattr, Yfs.isfile, Yfs.isdir, Yfs.hasType, Yfs.getfile, Yfs.getdir, hattr₁, hattr₂, hattr₃, attr_type]
  cases node with
  | file data times =>
      simp only [Node.type, beq_self_eq_true, if_true]
      refine ⟨?_, hs₂⟩
      simp only [fileStat, Node.record, Record.attr, hsize]
      rfl
  | dir entries times =>
      simp only [Node.type, show (T_DIR == T_FILE) = false by decide, Bool.false_eq_true, if_false, beq_self_eq_true,
        if_true]
      exact ⟨rfl, hs₃⟩
  | symlink target times =>
      simp only [Node.type, show (T_SYMLINK == T_FILE) = false by decide, show (T_SYMLINK == T_DIR) = false by decide,
        Bool.false_eq_true, if_false]
      refine ⟨?_, hs₃⟩
      simp only [fileStat, Node.record, Record.attr, hsize]
      rfl

theorem attr_shows (hs : Holds record ok s t.record fresh) (ht : t.Ok) (c : Fin n) (hino : t ino ≠ none) :
    ∃ s', fuseserverGetattr s c ino = (t.attr ino, s') ∧ Holds record ok s' t.record fresh := by
  obtain ⟨node, hnode⟩ := Option.ne_none_iff_exists'.mp hino
  obtain ⟨hstat, hs'⟩ := getattr_shows hs ht c hnode
  refine ⟨(getattr s c ino).2, ?_, hs'⟩
  rw [Tree.attr, hnode, Option.elim_some, ← hstat]
  rfl

theorem read_shows (hs : Holds record ok s t.record fresh) (ht : t.Ok) (m : Manager σ) (env : Env) (c : Fin n)
    (hfile : t.Is ino T_FILE) (size off : Nat) :
    ∃ s', Yfs.perform m env s c (.file ino (.read size off)) =
        some (((FileOp.read size off).reference (t.data ino)).2, s') ∧ Holds record ok s' t.record fresh := by
  obtain ⟨hbuf, hs'⟩ := hs.clientGet c (ht.lt hfile.ne_none)
  rw [(record_file hfile).1] at hbuf
  refine ⟨(s.clientGet c ino).2, ?_, hs'⟩
  rw [Yfs.perform]
  simp only [Yfs.Op.ino, Yfs.Op.next, Yfs.FileOp.next, hbuf, FileOp.reference, Yfs.read_reference]

-- The records after a write.
theorem record_write {now : Times} {op : FileOp} (hfile : t.Is ino T_FILE) :
    (t.write now ino op).record = stored t.record ino (op.reference (t.data ino)).1 now := by
  rw [Tree.write, record_update, stored, (record_file hfile).2]
  rfl

-- The calls that put a new content.
def Puts (op : FileOp) : Prop := ∀ size off, op ≠ .read size off

theorem write_shows (hs : Holds record ok s t.record fresh) (ht : t.Ok) (hm : Keeper m record ok LIMIT CAPACITY)
    (env : Env) (c : Fin n) {op : FileOp} (hop : Puts op) (hfile : t.Is ino T_FILE)
    (hfits : (t.write env.now ino op).Fits) :
    ∃ s', Yfs.perform m env s c (.file ino op) = some ((op.reference (t.data ino)).2, s') ∧
      Holds record ok s' (t.write env.now ino op).record fresh := by
  have hlt := ht.bound ino hfile.ne_none
  obtain ⟨hbuf, hs₁⟩ := hs.clientGet c (ht.lt hfile.ne_none)
  rw [(record_file hfile).1] at hbuf
  have hlength : (op.reference (t.data ino)).1.length ≤ LIMIT := by
    have hcontent := hfits.content hlt
    rwa [record_write hfile, stored, Function.update_self] at hcontent
  have hwithin : op.Within (t.data ino) := hlength.trans_lt (by decide)
  have hroom : used (stored t.record ino (op.reference (t.data ino)).1 env.now) ≤ CAPACITY := by
    rw [← record_write hfile]
    exact hfits.2
  have htype := record_type_ne_zero hfile.ne_none
  obtain ⟨s', hput, hs'⟩ := hs₁.put hm env c (fun _ hf => hf.elim) hlt htype hlength hroom
  rw [← record_write hfile] at hs'
  refine ⟨s', ?_, hs'⟩
  rw [← Yfs.apply_reference hwithin, ← hbuf] at hput ⊢
  cases op with
  | read size off => exact absurd rfl (hop size off)
  | write off data => exact Yfs.perform_call rfl hput
  | setattr size => exact Yfs.perform_call rfl hput

end Handlers

section Names

variable {σ : Type} {n : Nat} {m : Manager σ} {record : σ → Nat → Record} {ok : σ → Prop} {s : System σ n} {t : Tree}
  {ino parent id : Nat} {name : Bytes} {node : Node}

-- What the calls of Make leave in the new inode.
def newNode (now : Times) : Make → Node
  | .create _ => .file [] ⟨0, 0, 0⟩
  | .mkdir _ => .dir [] ⟨0, 0, 0⟩
  | .symlink _ link => .symlink link now

theorem record_add {now : Times} (hdir : t.Is parent T_DIR) (hne : parent ≠ id) :
    (t.add now parent name id node).record = linked t.record id parent name node.record now := by
  have hcontent : encode (t.entries parent ++ [⟨name, id⟩]) = (t.record parent).content ++ entry name id := by
    rw [Directory.encode_append, (record_dir hdir).1]
    simp [encode]
  have htype : (Function.update t.record id node.record parent).type = T_DIR.toUInt16 := by
    rw [Function.update_of_ne hne, (record_dir hdir).2]
  rw [Tree.add, record_update, record_update, linked, stored, htype, ← hcontent]
  rfl

theorem handle_shows (hs : Holds record ok s t.record fresh) (ht : t.Ok) (hm : Keeper m record ok LIMIT CAPACITY)
    (env : Env) (c : Fin n) {make : Make} (hdir : t.Is parent T_DIR) (hfree : t.free = some id)
    (hfits : (t.add env.now parent make.name id (newNode env.now make)).Fits) :
    ∃ s', make.handle m env s c parent = some (.id id, s') ∧
      Holds record ok s' (t.add env.now parent make.name id (newNode env.now make)).record fresh := by
  obtain ⟨-, hid, hnone⟩ := free_eq_some hfree
  have hne : parent ≠ id := by
    rintro rfl
    exact hdir.ne_none hnone
  have hparent := ht.bound parent hdir.ne_none
  have htype := record_type_ne_zero hdir.ne_none
  have hbuf := hfits.content hparent
  have hnew := hfits.content hid
  have hroom := hfits.2
  rw [record_add hdir hne] at hbuf hnew hroom ⊢
  rw [linked, stored, Function.update_self] at hbuf
  rw [linked, ExtentService.stored_of_ne hne.symm, Function.update_self] at hnew
  rw [← firstFree_record] at hfree
  cases make with
  | create name => exact hs.create hm env c T_FILE hfree hparent htype hbuf hroom
  | mkdir name => exact hs.create hm env c T_DIR hfree hparent htype hbuf hroom
  | symlink name link =>
      exact hs.createSymLink hm env c hfree hparent htype hnew hbuf hroom

-- The handlers that make a name.
theorem make_shows (hs : Holds record ok s t.record fresh) (ht : t.Ok) (hm : Keeper m record ok LIMIT CAPACITY)
    (env : Env) (c : Fin n) (make : Make) (inum : Nat) (answer : EntryParam → Reply)
    (hmakes : t.Makes parent make.name)
    (hok : (t.make env.now answer parent make.name (newNode env.now make)).2.Ok) :
    ∃ s', ((Yfs.perform m env s c (make.op parent)).map (newEntry c inum)).map
        (fun out => (entryReply answer out.1, out.2)) =
          some ((t.make env.now answer parent make.name (newNode env.now make)).1, s') ∧
      Holds record ok s' (t.make env.now answer parent make.name (newNode env.now make)).2.record fresh := by
  obtain ⟨hdir, -, hinode⟩ := hmakes
  obtain ⟨hbuf, hs₁⟩ := hs.clientGet c (ht.lt hdir.ne_none)
  have hlookup := ht.lookup hdir make.name
  rw [← hbuf] at hlookup
  rw [Tree.make] at hok ⊢
  cases hfind : t.find parent make.name with
  | some j =>
      rw [hfind] at hlookup
      rw [Yfs.perform_exist hlookup]
      exact ⟨_, rfl, hs₁⟩
  | none =>
      obtain ⟨id, hfree⟩ := Option.ne_none_iff_exists'.mp (hinode hfind)
      rw [hfind, hfree] at hok
      rw [hfind] at hlookup
      obtain ⟨s₂, hcall, hs₂⟩ := handle_shows hs₁ ht hm env c hdir hfree hok.fits
      have hnode : t.add env.now parent make.name id (newNode env.now make) id = some (newNode env.now make) := by
        have hne : id ≠ parent := by
          rintro rfl
          exact hdir.ne_none (free_eq_some hfree).2.2
        rw [Tree.add, Function.update_of_ne hne, Function.update_self]
      obtain ⟨hstat, hs₃⟩ := getattr_shows hs₂ hok c hnode
      refine ⟨(getattr s₂ c id).2, ?_, ?_⟩
      · rw [Yfs.perform_make hlookup hcall, hfree]
        simp only [Option.map_some, newEntry, createdIno, hstat, reduceCtorEq, if_false, entryReply]
      · rw [hfree]
        exact hs₃

theorem lookup_shows (hs : Holds record ok s t.record fresh) (ht : t.Ok) (m : Manager σ) (env : Env) (c : Fin n)
    (hdir : t.Is parent T_DIR) (name : Bytes) :
    ∃ s', fuseserverLookup m env s c parent name =
        some ((t.find parent name).elim (.err .ENOENT) (t.entry .entry), s') ∧ Holds record ok s' t.record fresh := by
  obtain ⟨hbuf, hs₁⟩ := hs.clientGet c (ht.lt hdir.ne_none)
  have hlookup := ht.lookup hdir name
  rw [← hbuf] at hlookup
  have hperform : Yfs.perform m env s c (.lookup parent name) =
      some (.found (t.find parent name), (s.clientGet c parent).2) := by
    simp only [Yfs.perform, Yfs.Op.ino, Yfs.Op.next, hlookup, Option.map_some]
  rw [fuseserverLookup, hperform, Option.map_some]
  cases hfind : t.find parent name with
  | none => exact ⟨_, rfl, hs₁⟩
  | some id =>
      obtain ⟨before, after, hsplit, -, -⟩ := ht.find_eq_some hfind
      have hlive := ht.live parent ⟨name, id⟩ (by simp [hsplit])
      obtain ⟨node, hnode⟩ := Option.ne_none_iff_exists'.mp hlive.1
      obtain ⟨hstat, hs₂⟩ := getattr_shows hs₁ ht c hnode
      refine ⟨_, ?_, hs₂⟩
      rw [Option.elim_some, Tree.entry, hnode, Option.elim_some, ← hstat]
      rfl

theorem readdir_shows (hs : Holds record ok s t.record fresh) (ht : t.Ok) (lib : Libfuse) (m : Manager σ) (env : Env)
    (c : Fin n)     (hino : t ino ≠ none) (size off : Nat) :
    ∃ s', fuseserverReaddir lib m env s c ino size off = some (t.readdir lib ino size off, s') ∧
      Holds record ok s' t.record fresh := by
  obtain ⟨node, hnode⟩ := Option.ne_none_iff_exists'.mp hino
  obtain ⟨hattr, hs₁⟩ := hs.clientGetattr c (ht.lt hino)
  rw [record_some hnode] at hattr
  rw [Tree.readdir, hnode]
  simp only [fuseserverReaddir, Yfs.isdir, Yfs.hasType, hattr, attr_type]
  cases node with
  | file data times => exact ⟨_, rfl, hs₁⟩
  | symlink target times => exact ⟨_, rfl, hs₁⟩
  | dir entries times =>
      have hentries : t.entries ino = entries := by
        rw [Tree.entries, hnode]
        rfl
      obtain ⟨hbuf, hs₂⟩ := hs₁.clientGet c (ht.lt hino)
      rw [record_some hnode] at hbuf
      have hplain := ht.plain ino
      rw [hentries] at hplain
      have hread : Directory.readdir ((s.clientGetattr c ino).2.clientGet c ino).1 = some entries := by
        rw [hbuf]
        exact Directory.readdir_encode hplain
      refine ⟨_, ?_, hs₂⟩
      simp only [Node.type, beq_self_eq_true, if_true, Yfs.perform, Yfs.Op.ino, Yfs.Op.next, hread, Option.map_some,
        readdirReply]

theorem cstr_eq {text : Bytes} (h : 0 ∉ text) : cstr text = text := by
  refine List.takeWhile_eq_self_iff.mpr fun c hc => bne_iff_ne.mpr ?_
  rintro rfl
  exact h hc

theorem readlink_shows (hs : Holds record ok s t.record fresh) (ht : t.Ok) (c : Fin n) (hlink : t.Is ino T_SYMLINK) :
    ∃ s', fuseserverReadlink s c ino = (.readlink (t.target ino), s') ∧ Holds record ok s' t.record fresh := by
  obtain ⟨hbuf, hs'⟩ := hs.clientGet c (ht.lt hlink.ne_none)
  obtain ⟨times, hnode⟩ := hlink.symlink
  rw [record_some hnode] at hbuf
  refine ⟨_, ?_, hs'⟩
  show (Reply.readlink (cstr (s.clientGet c ino).1), _) = _
  rw [hbuf]
  exact congrArg (fun target => (Reply.readlink target, _)) (cstr_eq (ht.targets ino))

-- The server erases the right entry.
theorem Tree.Ok.erase (ht : t.Ok) (hdir : t.Is parent T_DIR) (hfind : t.find parent name = some id)
    (hclear : Clear (t.entries parent) name) :
    eraseEntry (t.record parent).content name =
      some (encode ((t.entries parent).filter fun e => e.name ≠ name)) := by
  obtain ⟨before, after, hsplit, hbefore, hfilter⟩ := ht.find_eq_some hfind
  have hwhile : (t.entries parent).takeWhile (fun d => decide (d.name ≠ name)) = before := by
    rw [hsplit, List.takeWhile_append_of_pos, List.takeWhile_cons_of_neg (by simp), List.append_nil]
    intro d hd
    refine decide_eq_true ?_
    rintro rfl
    exact hbefore (List.mem_map_of_mem hd)
  have hmem : (⟨name, id⟩ : Dirent) ∈ t.entries parent := by simp [hsplit]
  have hnamed : Named ⟨name, id⟩ := by
    obtain ⟨hne, hcolon, hslash, -⟩ := ht.proper parent _ hmem
    exact ⟨hne, hcolon, hslash, ht.bound id (ht.live parent _ hmem).1⟩
  rw [Clear, hwhile] at hclear
  rw [(record_dir hdir).1, hfilter, hsplit]
  exact ExtentService.eraseEntry_own hnamed ((ExtentService.findText_eq_none_iff hnamed).mpr hclear)

theorem record_remove {now : Times} (hdir : t.Is parent T_DIR) (hne : parent ≠ id) :
    (t.remove now parent name id).record = stored (Function.update t.record id {}) parent
      (encode ((t.entries parent).filter fun e => e.name ≠ name)) now := by
  have htype : (Function.update t.record id {} parent).type = T_DIR.toUInt16 := by
    rw [Function.update_of_ne hne, (record_dir hdir).2]
  rw [Tree.remove, record_update, record_update, stored, htype]
  rfl

theorem unlink_shows (hs : Holds record ok s t.record fresh) (ht : t.Ok) (hm : Keeper m record ok LIMIT CAPACITY)
    (env : Env) (c : Fin n) (inum : Nat) (hdir : t.Is parent T_DIR) (hfind : t.find parent name = some id)
    (hclear : Clear (t.entries parent) name) (hfits : (t.remove env.now parent name id).Fits) :
    ∃ s', fuseserverUnlink m env s c inum parent name = some (.err .zero, s') ∧
      Holds record ok s' (t.remove env.now parent name id).record fresh := by
  obtain ⟨before, after, hsplit, -, -⟩ := ht.find_eq_some hfind
  obtain ⟨hlive, -, hne⟩ := ht.live parent ⟨name, id⟩ (by simp [hsplit])
  have hne := Ne.symm hne
  obtain ⟨hbuf, hs₁⟩ := hs.clientGet c (ht.lt hdir.ne_none)
  have hlookup := ht.lookup hdir name
  rw [← hbuf, hfind] at hlookup
  have hparent := ht.bound parent hdir.ne_none
  have hlength := hfits.content hparent
  have hroom := hfits.2
  rw [record_remove hdir hne] at hlength hroom ⊢
  rw [stored, Function.update_self] at hlength
  obtain ⟨s', hremove, hs'⟩ := hs₁.remove hm env c (ht.bound id hlive) (record_type_ne_zero hlive) hparent
    (record_type_ne_zero hdir.ne_none) hne (ht.erase hdir hfind hclear) hlength hroom
  refine ⟨s', ?_, hs'⟩
  simp only [fuseserverUnlink, Yfs.unlink, hlookup, Option.getD_some, System.operate, System.handle, hremove,
    Option.bind_some, Option.bind_eq_bind]
  rfl

end Names

section Requests

variable {σ : Type} {n : Nat} {m : Manager σ} {record : σ → Nat → Record} {ok : σ → Prop} {s : System σ n} {t : Tree}
  {lib : Libfuse}

theorem setattr_shows {ino size : Nat} {toSet : BitVec 32} (hs : Holds record ok s t.record fresh) (ht : t.Ok)
    (hm : Keeper m record ok LIMIT CAPACITY) (env : Env) (c : Fin n)
    (haccepts : t.Accepts lib (.setattr ino size toSet))
    (hok : (t.serve lib env.now (.setattr ino size toSet)).2.Ok) :
    ∃ s', fuseserverSetattr lib m env s c ino size toSet = some ((t.serve lib env.now (.setattr ino size toSet)).1, s') ∧
      Holds record ok s' (t.serve lib env.now (.setattr ino size toSet)).2.record fresh := by
  rw [Tree.serve] at hok ⊢
  rw [fuseserverSetattr]
  by_cases htouches : touches lib toSet
  · obtain ⟨hino, hkind⟩ := haccepts htouches
    rw [if_pos htouches] at hok ⊢
    rw [if_pos htouches]
    have hok : (t.setattr lib env.now ino size toSet).Ok := hok
    show ∃ s', _ = some ((t.setattr lib env.now ino size toSet).attr ino, s') ∧
      Holds record ok s' (t.setattr lib env.now ino size toSet).record fresh
    rw [Tree.setattr] at hok ⊢
    by_cases hsize : toSet &&& lib.FUSE_SET_ATTR_SIZE ≠ 0
    · rw [if_pos hsize] at hok ⊢
      rw [if_pos hsize]
      obtain ⟨s₁, hperform, hs₁⟩ := write_shows hs ht hm env c (by simp [Puts] : Puts (.setattr size)) (hkind hsize)
        hok.fits
      have hlive : t.write env.now ino (.setattr size) ino ≠ none := by
        rw [Tree.write, Function.update_self]
        exact Option.some_ne_none _
      obtain ⟨s', hattr, hs'⟩ := attr_shows hs₁ hok c hlive
      refine ⟨s', ?_, hs'⟩
      rw [hperform, Option.map_some, hattr]
    · rw [if_neg hsize]
      obtain ⟨s', hattr, hs'⟩ := attr_shows hs ht c hino
      rw [if_neg hsize]
      exact ⟨s', congrArg some hattr, hs'⟩
  · rw [if_neg htouches, if_neg htouches]
    exact ⟨s, rfl, hs⟩

-- A handler replies what the tree replies, and the records stay those of the tree.
theorem serve_shows {req : Request} (hs : Holds record ok s t.record fresh) (ht : t.Ok)
    (hm : Keeper m record ok LIMIT CAPACITY) (env : Env) (c : Fin n) (inum : Nat) (haccepts : t.Accepts lib req)
    (hok : (t.serve lib env.now req).2.Ok) :
    ∃ s', serve lib m env s c inum req = some ((t.serve lib env.now req).1, s') ∧
      Holds record ok s' (t.serve lib env.now req).2.record fresh := by
  cases req with
  | getattr ino =>
      obtain ⟨s', hattr, hs'⟩ := attr_shows hs ht c haccepts
      exact ⟨s', congrArg some hattr, hs'⟩
  | setattr ino size toSet => exact setattr_shows hs ht hm env c haccepts hok
  | read ino size off =>
      obtain ⟨s', hperform, hs'⟩ := read_shows hs ht m env c haccepts size off
      refine ⟨s', ?_, hs'⟩
      rw [serve, fuseserverRead, hperform]
      rfl
  | write ino buf off =>
      obtain ⟨s', hperform, hs'⟩ := write_shows hs ht hm env c (by simp [Puts]) haccepts hok.fits
      refine ⟨s', ?_, hs'⟩
      rw [serve, fuseserverWrite, hperform]
      rfl
  | create parent name =>
      obtain ⟨s', hmake, hs'⟩ := make_shows hs ht hm env c (.create name) inum .create haccepts hok
      refine ⟨s', ?_, hs'⟩
      rw [serve, fuseserverCreate, fuseserverCreatehelper, if_pos rfl]
      exact hmake
  | mknod parent name =>
      obtain ⟨s', hmake, hs'⟩ := make_shows hs ht hm env c (.create name) inum .entry haccepts hok
      refine ⟨s', ?_, hs'⟩
      rw [serve, fuseserverMknod, fuseserverCreatehelper, if_pos rfl]
      exact hmake
  | lookup parent name => exact lookup_shows hs ht m env c haccepts name
  | readdir ino size off => exact readdir_shows hs ht lib m env c haccepts size off
  | openFile ino => exact ⟨s, rfl, hs⟩
  | mkdir parent name =>
      obtain ⟨s', hmake, hs'⟩ := make_shows hs ht hm env c (.mkdir name) inum .entry haccepts hok
      refine ⟨s', ?_, hs'⟩
      rw [serve, fuseserverMkdir, fuseserverCreatehelper, if_neg (by decide : T_DIR ≠ T_FILE)]
      exact hmake
  | unlink parent name =>
      obtain ⟨hdir, hsome, hclear⟩ := haccepts
      obtain ⟨id, hfind⟩ := Option.ne_none_iff_exists'.mp hsome
      rw [Tree.serve, Tree.unlink, hfind] at hok ⊢
      exact unlink_shows hs ht hm env c inum hdir hfind hclear hok.fits
  | symlink link parent name =>
      obtain ⟨s', hmake, hs'⟩ := make_shows hs ht hm env c (.symlink name link) inum .entry haccepts.1 hok
      refine ⟨s', ?_, hs'⟩
      rw [Option.map_map] at hmake
      exact hmake
  | readlink ino =>
      obtain ⟨s', hlink, hs'⟩ := readlink_shows hs ht c haccepts
      exact ⟨s', congrArg some hlink, hs'⟩
  | statfs => exact ⟨s, rfl, hs⟩

end Requests

section Runs

variable {σ : Type} {n : Nat} {m : Manager σ} {record : σ → Nat → Record} {ok : σ → Prop} {s : System σ n} {t : Tree}
  {lib : Libfuse}

def Tree.step (t : Tree) (lib : Libfuse) : Event n → Option Reply × Tree
  | .start env _ => (none, t.root env.now)
  | .request env _ _ req => (some (t.serve lib env.now req).1, (t.serve lib env.now req).2)

def Tree.run (t : Tree) (lib : Libfuse) : List (Event n) → List (Option Reply) × Tree
  | [] => ([], t)
  | event :: rest =>
      let (reply, t) := t.step lib event
      let (replies, t) := t.run lib rest
      (reply :: replies, t)

def Tree.Takes (t : Tree) (lib : Libfuse) : Event n → Prop
  | .start _ _ => True
  | .request _ _ _ req => t.Accepts lib req

instance (t : Tree) (lib : Libfuse) (event : Event n) : Decidable (t.Takes lib event) :=
  match event with
  | .start _ _ => inferInstanceAs (Decidable True)
  | .request _ _ _ req => inferInstanceAs (Decidable (t.Accepts lib req))

-- Each event is taken, and leaves a tree for which there is room.
def Tree.Allows (t : Tree) (lib : Libfuse) : List (Event n) → Prop
  | [] => True
  | event :: rest => t.Takes lib event ∧ (t.step lib event).2.Fits ∧ (t.step lib event).2.Allows lib rest

instance decidableAllows (t : Tree) (lib : Libfuse) : (events : List (Event n)) → Decidable (t.Allows lib events)
  | [] => .isTrue trivial
  | event :: rest =>
      have := decidableAllows (t.step lib event).2 lib rest
      inferInstanceAs (Decidable (_ ∧ _ ∧ _))

theorem record_root {now : Times} (hroot : (t.record 1).type = T_DIR.toUInt16) :
    (t.root now).record = stored t.record 1 [] now := by
  rw [Tree.root, record_update, stored, hroot]
  rfl

theorem step_shows {event : Event n} (hs : Holds record ok s t.record fresh) (ht : t.Ok)
    (hm : Keeper m record ok LIMIT CAPACITY) (htakes : t.Takes lib event) (hfits : (t.step lib event).2.Fits) :
    ∃ s', step lib m s event = some ((t.step lib event).1, s') ∧ Holds record ok s' (t.step lib event).2.record fresh ∧
      (t.step lib event).2.Ok := by
  cases event with
  | start env c =>
      have hroot := (record_dir ht.root).2
      have hroom := hfits.2
      rw [Tree.step, record_root hroot] at hroom
      obtain ⟨s', hput, hs'⟩ := hs.put hm env c (fun _ hf => hf.elim) (by decide)
        (record_type_ne_zero ht.root.ne_none) (Nat.zero_le _) hroom
      rw [← record_root hroot] at hs'
      exact ⟨s', congrArg (Option.map _) hput, hs', ht.start hfits⟩
  | request env c inum req =>
      have hok := ht.serve htakes hfits
      obtain ⟨s', hserve, hs'⟩ := serve_shows hs ht hm env c inum htakes hok
      exact ⟨s', congrArg (Option.map _) hserve, hs', hok⟩

theorem run_shows {events : List (Event n)} (hs : Holds record ok s t.record fresh) (ht : t.Ok)
    (hm : Keeper m record ok LIMIT CAPACITY) (hallows : t.Allows lib events) :
    ∃ s', run lib m s events = some ((t.run lib events).1, s') ∧ Holds record ok s' (t.run lib events).2.record fresh ∧
      (t.run lib events).2.Ok := by
  induction events generalizing s t with
  | nil => exact ⟨s, rfl, hs, ht⟩
  | cons event rest ih =>
      obtain ⟨htakes, hfits, hrest⟩ := hallows
      obtain ⟨s₁, hstep, hs₁, hok⟩ := step_shows hs ht hm htakes hfits
      obtain ⟨s', hrun, hs'⟩ := ih hs₁ hok hrest
      refine ⟨s', ?_, hs'⟩
      simp only [run, hstep, hrun, Option.map_some]
      rfl

-- The tree of a client that has been started on a new disk.
def newTree (now : Times) : Tree := Tree.root (fun _ => none) now

theorem newTree_of_ne {now : Times} {id : Nat} (h : id ≠ 1) : newTree now id = none := by
  rw [newTree, Tree.root, Function.update_of_ne h]

theorem entries_newTree (now : Times) (p : Nat) : (newTree now).entries p = [] := by
  rw [newTree, Tree.root, entries_update]
  split
  · rfl
  · rfl

theorem record_newTree (now : Times) :
    (newTree now).record = stored (Function.update (fun _ => {}) 1 { type := T_DIR.toUInt16 }) 1 [] now := by
  rw [newTree, Tree.root, record_update, ExtentService.stored_update]
  rfl

theorem content_newTree (now : Times) (id : Nat) : ((newTree now).record id).content = [] := by
  rw [record_newTree, stored, Function.update_apply]
  split
  · rfl
  · next hne => rw [Function.update_of_ne hne]

theorem fits_newTree (now : Times) : (newTree now).Fits := by
  refine ⟨fun id _ => ?_, ?_⟩
  · rw [content_newTree]
    exact Nat.zero_le _
  · rw [ExtentService.used_eq_zero (content_newTree now)]
    exact Nat.zero_le _

theorem ok_newTree (now : Times) : (newTree now).Ok where
  bound id hid := by
    by_contra hge
    refine hid (newTree_of_ne ?_)
    rintro rfl
    exact hge (by decide)
  root := by
    rw [Tree.Is, newTree, Tree.root, Function.update_self]
    rfl
  proper p e he := by simp [entries_newTree] at he
  nodup p := by simp [entries_newTree]
  live p e he := by simp [entries_newTree] at he
  unique p d q e hd := by simp [entries_newTree] at hd
  targets id := by
    rw [newTree, Tree.root, target_update]
    split
    · exact List.not_mem_nil
    · exact List.not_mem_nil
  fits := fits_newTree now

-- The first client on a new disk.
theorem construct_shows {s : System Fs n} (hempty : Empty s) (hdisk : InodeManager.Initial s.server.im) (env : Env)
    (c : Fin n) : ∃ s', Yfs.construct diskManager env s c = some s' ∧
      Holds diskRecord Kept s' (newTree env.now).record fresh := by
  have hrecord := ExtentService.diskRecord_initial hdisk
  have hs : Holds diskRecord Kept s (Function.update (fun _ => {}) 1 { type := T_DIR.toUInt16 }) (· = 1) := by
    refine ⟨hdisk.kept, ExtentService.coherent_of_empty hempty, hrecord, fun id _ hne => ?_⟩
    rw [hrecord, Function.update_of_ne hne]
    exact hempty.2 id
  have hroom := (fits_newTree env.now).2
  rw [record_newTree] at hroom ⊢
  exact hs.put ExtentService.diskManager_keeper env c (fun _ he => he) (by decide)
    (by rw [Function.update_self]; decide) (Nat.zero_le _) hroom

theorem start_shows {s : System Fs n} (hempty : Empty s) (hdisk : InodeManager.Initial s.server.im) (env : Env)
    (c : Fin n) {events : List (Event n)} (hallows : (newTree env.now).Allows lib events) :
    ∃ s', run lib diskManager s (.start env c :: events) = some (none :: ((newTree env.now).run lib events).1, s') ∧
      Holds diskRecord Kept s' ((newTree env.now).run lib events).2.record fresh ∧ ((newTree env.now).run lib events).2.Ok := by
  obtain ⟨s₁, hstart, hs₁⟩ := construct_shows hempty hdisk env c
  obtain ⟨s', hrun, hs', hok⟩ := run_shows hs₁ (ok_newTree env.now) ExtentService.diskManager_keeper hallows
  refine ⟨s', ?_, hs', hok⟩
  simp only [run, step, hstart, hrun, Option.map_some]

-- What the clients see is one tree of files, whichever of them asks, and the disk holds it.
theorem requests_refine {s : System Fs n} (hempty : Empty s) (hdisk : InodeManager.Initial s.server.im) (env : Env)
    (c : Fin n) {events : List (Event n)} (hallows : (newTree env.now).Allows lib events) :
    ∃ s', run lib diskManager s (.start env c :: events) = some (none :: ((newTree env.now).run lib events).1, s') ∧
      diskRecord s'.server.im = ((newTree env.now).run lib events).2.record := by
  obtain ⟨s', hrun, hs', -⟩ := start_shows hempty hdisk env c hallows
  exact ⟨s', hrun, hs'.agrees⟩

-- The low byte first, as in memory.
def numeral (width value : Nat) : Bytes := (List.range width).map (digit value)

-- The place for an entry: three numbers and the name, filled up to a multiple of 8.
def padded (namelen : Nat) : Nat := (24 + namelen + 7) / 8 * 8

def packedEntry (name : Bytes) (ino off : Nat) : Bytes :=
  numeral 8 ino ++ numeral 8 off ++ numeral 8 name.length ++ name ++
    List.replicate (padded name.length - (24 + name.length)) 0

theorem length_numeral (width v : Nat) : (numeral width v).length = width := by simp [numeral]

theorem padded_ge (namelen : Nat) : 24 + namelen ≤ padded namelen ∧ padded namelen ≤ namelen + 31 := by
  simp only [padded]
  omega

theorem length_packedEntry (name : Bytes) (ino off : Nat) : (packedEntry name ino off).length = padded name.length := by
  have hge := (padded_ge name.length).1
  simp only [packedEntry, List.length_append, length_numeral, List.length_replicate]
  omega

-- A library for which the theorems can be evaluated.
def packed : Libfuse where
  FUSE_SET_ATTR_SIZE := 1 <<< 3
  FUSE_SET_ATTR_ATIME := 1 <<< 4
  FUSE_SET_ATTR_MTIME := 1 <<< 5
  direntSize := padded
  addDirent := packedEntry
  length_addDirent := length_packedEntry

-- One client makes and fills a file, the other one reads and removes it.
def someRequests (c d : Fin n) : List (Event n) :=
  [.request someEnv c 0 (.mkdir 1 [100]), .request someEnv c 0 (.create 2 [97]),
    .request someEnv c 0 (.write 3 [7, 8] 0), .request someEnv d 0 (.read 3 4096 1),
    .request someEnv d 0 (.unlink 2 [97])]

theorem requests_refine_two : ∃ s',
    run packed diskManager (emptySystem 2) (.start someEnv 0 :: someRequests 0 1) =
        some (none :: ((newTree someEnv.now).run packed (someRequests (0 : Fin 2) 1)).1, s') ∧
      diskRecord s'.server.im = ((newTree someEnv.now).run packed (someRequests (0 : Fin 2) 1)).2.record :=
  requests_refine (ExtentService.empty_emptySystem 2) InodeManager.initial_startFs someEnv 0 (by decide +kernel)

end Runs

end CseLabs.Fuse
