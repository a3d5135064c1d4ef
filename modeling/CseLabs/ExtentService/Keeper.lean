import CseLabs.ExtentService.Transparent
import CseLabs.InodeManager.Direct

namespace CseLabs.ExtentService

open InodeManager (Bytes Fs Times INODE_NUM NDIRECT BLOCK_SIZE BLOCK_NUM FILEBLOCK T_DIR T_SYMLINK blocksNum Kept Same)
open Directory (entry)
open Extent (mask)

section Keeper

-- The blocks that the contents take.
def used (records : Nat → Record) : Nat := ∑ id ∈ Finset.range INODE_NUM, blocksNum (records id).content.length

def stored (records : Nat → Record) (id : Nat) (buf : Bytes) (now : Times) : Nat → Record :=
  Function.update records id ⟨(records id).type, buf, now⟩

-- An inode_manager that keeps the records of all inodes, as long as no content is longer than
-- limit and the contents take no more than capacity blocks.
structure Keeper {σ : Type} (m : Manager σ) (record : σ → Nat → Record) (ok : σ → Prop) (limit capacity : Nat) :
    Prop where
  readFile : ∀ env id im, ok im → ∃ buf, m.readFile env id im = some buf ∧ buf.getD [] = (record im id).content
  getattr : ∀ id im, ok im → m.getattr id {} im = some (record im id).attr
  allocInode : ∀ type id im, ok im → firstFree (types record im) = some id →
    ∃ im', m.allocInode type im = some (id, im') ∧ ok im' ∧
      record im' = Function.update (record im) id { type := type.toUInt16 }
  writeFile : ∀ env id buf im, ok im → id < INODE_NUM → (record im id).type ≠ 0 → buf.length ≤ limit →
    used (stored (record im) id buf env.now) ≤ capacity →
      ∃ im', m.writeFile env id buf (toInt buf.length) im = some im' ∧ ok im' ∧
        record im' = stored (record im) id buf env.now
  removeFile : ∀ env id im, ok im → id < INODE_NUM → (record im id).type ≠ 0 →
    ∃ im', m.removeFile env id im = some im' ∧ ok im' ∧ record im' = Function.update (record im) id {}

theorem used_update (records : Nat → Record) {id : Nat} (hid : id < INODE_NUM) (r : Record) :
    used (Function.update records id r) + blocksNum (records id).content.length =
      used records + blocksNum r.content.length :=
  sum_update_add (Finset.range INODE_NUM) records (fun r => blocksNum r.content.length) (Finset.mem_range.mpr hid) r

theorem used_eq_zero {records : Nat → Record} (h : ∀ id, (records id).content = []) : used records = 0 := by
  refine Finset.sum_eq_zero fun id _ => ?_
  rw [h id]
  rfl

theorem firstFree_bounds {type : Nat → UInt16} {id : Nat} (h : firstFree type = some id) :
    1 ≤ id ∧ id < INODE_NUM ∧ type id = 0 ∧ ∀ j, 1 ≤ j → j < id → type j ≠ 0 := by
  obtain ⟨htype, hmem, hbefore⟩ := List.find?_range'_eq_some.mp h
  have hnum : INODE_NUM = 1024 := rfl
  have hrange := List.mem_range'_1.mp hmem
  exact ⟨hrange.1, by omega, by simpa using htype, fun j hj hlt => by simpa using hbefore j hj hlt⟩

end Keeper

section Disk

-- What the disk holds of an inode.
def diskRecord (im : Fs) (id : Nat) : Record :=
  if id < INODE_NUM then ⟨(im.inode id).type, im.content (im.inode id), (im.inode id).times⟩ else {}

variable {im im' : Fs} {id : Nat}

theorem diskRecord_of_lt (hid : id < INODE_NUM) :
    diskRecord im id = ⟨(im.inode id).type, im.content (im.inode id), (im.inode id).times⟩ := if_pos hid

theorem length_content (im : Fs) (ino : InodeManager.Inode) : (im.content ino).length = ino.size.toNat := by
  rw [Fs.content, List.length_map, List.length_range]

theorem diskRecord_attr (hid : id < INODE_NUM) : (diskRecord im id).attr =
    { type := (im.inode id).type.toInt16.toInt32.toUInt32, atime := (im.inode id).atime
      mtime := (im.inode id).mtime, ctime := (im.inode id).ctime, size := (im.inode id).size } := by
  rw [diskRecord_of_lt hid, Record.attr, length_content, UInt32.ofNat_toNat]
  rfl

-- One inode has changed.
theorem diskRecord_update {r : Record} (hself : diskRecord im' id = r)
    (hsame : ∀ j < INODE_NUM, j ≠ id → Same im im' j) : diskRecord im' = Function.update (diskRecord im) id r := by
  funext j
  by_cases hj : j = id
  · rw [hj, Function.update_self, hself]
  · rw [Function.update_of_ne hj, diskRecord, diskRecord]
    split
    · next hlt => rw [(hsame j hlt hj).2, (hsame j hlt hj).1]
    · rfl

theorem diskRecord_fresh {type : UInt16} (hid : id < INODE_NUM) (hself : im'.inode id = (im.inode id).fresh type) :
    diskRecord im' id = { type := type } := by
  rw [diskRecord_of_lt hid, InodeManager.content_of_empty (by rw [hself]; rfl), hself]
  rfl

theorem used_diskRecord (im : Fs) : used (diskRecord im) = ∑ id ∈ Finset.range INODE_NUM, im.nblocks id := by
  refine Finset.sum_congr rfl fun id hid => ?_
  rw [diskRecord_of_lt (Finset.mem_range.mp hid), length_content]
  rfl

attribute [irreducible] used

theorem diskRecord_initial (h : InodeManager.Initial im) :
    diskRecord im = Function.update (fun _ => {}) 1 { type := T_DIR.toUInt16 } := by
  obtain ⟨memory, rfl⟩ := h.root
  have hblank : diskRecord (InodeManager.format memory) = fun _ => {} := by
    funext id
    have hsize : (InodeManager.Inode.ofBlock fun _ => 0).size = 0 := by decide +kernel
    have htype : (InodeManager.Inode.ofBlock fun _ => 0).type = 0 := by decide +kernel
    have htimes : (InodeManager.Inode.ofBlock fun _ => 0).times = ⟨0, 0, 0⟩ := by
      simp only [InodeManager.Inode.times, Times.mk.injEq]
      refine ⟨?_, ?_, ?_⟩ <;> decide +kernel
    rw [diskRecord]
    split
    · rw [InodeManager.content_of_empty (by rw [InodeManager.inode_format, hsize]), InodeManager.inode_format, htype,
        htimes]
    · rfl
  have hself := InodeManager.inode_setInode_self (s := InodeManager.format memory) 1
    (((InodeManager.format memory).inode 1).fresh T_DIR.toUInt16)
  rw [← hblank]
  refine diskRecord_update (diskRecord_fresh (by decide) hself) fun j hj hne => ?_
  have hother : ((InodeManager.format memory).setInode 1
      (((InodeManager.format memory).inode 1).fresh T_DIR.toUInt16)).inode j = (InodeManager.format memory).inode j :=
    InodeManager.inode_setInode_of_ne hne
  have hsize : ((InodeManager.format memory).inode j).size = 0 := by
    rw [InodeManager.inode_format]
    decide +kernel
  exact ⟨hother, by rw [InodeManager.content_of_empty hsize, InodeManager.content_of_empty (by rw [hother, hsize])]⟩

-- The repository's inode_manager is one, for files within their direct blocks.
theorem diskManager_keeper :
    Keeper diskManager diskRecord Kept (NDIRECT * BLOCK_SIZE) (BLOCK_NUM - FILEBLOCK) where
  readFile env id im hok := by
    show ∃ buf, (result (InodeManager.readFile env.junk id im)).map Prod.fst = some buf ∧ _
    by_cases hid : id < INODE_NUM
    · rw [hok.sound.readFile hid]
      exact ⟨_, rfl, by rw [diskRecord_of_lt hid]; rfl⟩
    · rw [InodeManager.readFile, InodeManager.bind_ok (InodeManager.getInode_none (not_lt.mp hid))]
      exact ⟨none, rfl, by rw [diskRecord, if_neg hid]; rfl⟩
  getattr id im _ := by
    show (result (InodeManager.getattr id {} im)).map Prod.fst = _
    by_cases hid : id < INODE_NUM
    · rw [InodeManager.getattr_run hid, diskRecord_attr hid]
      rfl
    · rw [InodeManager.getattr, InodeManager.bind_ok (InodeManager.getInode_none (not_lt.mp hid)), diskRecord,
        if_neg hid]
      rfl
  allocInode type id im hok hfree := by
    have htypes : ∀ j < INODE_NUM, types diskRecord im j = (im.inode j).type :=
      fun j hj => by rw [types, diskRecord_of_lt hj]
    obtain ⟨hlo, hid, hzero, hbefore⟩ := firstFree_bounds hfree
    rw [htypes id hid] at hzero
    obtain ⟨im', halloc, hok', hself, hsame⟩ := hok.allocInode type hlo hid hzero
      fun j hj hlt => htypes j (hlt.trans hid) ▸ hbefore j hj hlt
    refine ⟨im', ?_, hok', diskRecord_update (diskRecord_fresh hid hself) hsame⟩
    show result (InodeManager.allocInode type im) = some (id, im')
    rw [halloc]
    rfl
  writeFile env id buf im hok hid htype hbuf hroom := by
    rw [diskRecord_of_lt hid] at htype
    have hlimit : NDIRECT * BLOCK_SIZE < 2 ^ 31 := by decide
    have hsum : used (stored (diskRecord im) id buf env.now) + blocksNum (diskRecord im id).content.length =
        used (diskRecord im) + blocksNum buf.length := used_update (diskRecord im) hid _
    have hcount := hok.count
    have hold : blocksNum (diskRecord im id).content.length = im.nblocks id := by
      rw [diskRecord_of_lt hid, length_content]
      rfl
    rw [hold, used_diskRecord] at hsum
    obtain ⟨im', hwrite, hok', hkind, hcontent, htimes, hsame⟩ :=
      hok.writeFile env.junk env.now ⟨hid, htype⟩ hbuf (by omega)
    refine ⟨im', ?_, hok', diskRecord_update ?_ hsame⟩
    · show (if toInt buf.length < 0 then none
        else (result
          (InodeManager.writeFile env.junk env.now id (buf.take (toInt buf.length).toNat) im)).map Prod.snd) = _
      rw [toInt_of_lt (hbuf.trans_lt hlimit), if_neg (by omega), Int.toNat_natCast, List.take_length, hwrite]
      rfl
    · rw [diskRecord_of_lt hid, hkind, hcontent, htimes, diskRecord_of_lt hid]
  removeFile env id im hok hid htype := by
    rw [diskRecord_of_lt hid] at htype
    obtain ⟨im', hremove, hok', hself, hsame⟩ := hok.removeFile env.junk ⟨hid, htype⟩
    refine ⟨im', ?_, hok', diskRecord_update (diskRecord_fresh hid hself) hsame⟩
    show (result (InodeManager.removeFile env.junk id im)).map Prod.snd = some im'
    rw [hremove]
    rfl

end Disk

section System

variable {σ : Type} {n : Nat} {m : Manager σ} {record : σ → Nat → Record} {ok : σ → Prop} {limit capacity : Nat}
  {s : System σ n} {records : Nat → Record} {stale : Nat → Prop} {id parent : Nat} {buf name : Bytes}

-- A service whose inode_manager holds the records, and whose caches do except for stale inodes.
structure Holds (record : σ → Nat → Record) (ok : σ → Prop) (s : System σ n) (records : Nat → Record)
    (stale : Nat → Prop) : Prop where
  valid : ok s.server.im
  coherent : Coherent s
  agrees : record s.server.im = records
  caches : UpToDate record s stale

theorem Holds.mono {stale' : Nat → Prop} (h : Holds record ok s records stale) (hmore : ∀ j, stale j → stale' j) :
    Holds record ok s records stale' :=
  { h with caches := h.caches.mono hmore }

theorem Holds.insert (h : Holds record ok s records stale) (c : Fin n) (id : Nat) :
    Holds record ok (s.insert c id) records stale :=
  ⟨h.valid, h.coherent.insert c id, h.agrees, h.caches.insert c id⟩

theorem Holds.setIm {im : σ} {records' : Nat → Record} (h : Holds record ok s records stale) (hok : ok im)
    (hrecord : record im = records') (hkept : ∀ j, j ≠ id → records' j = records j) :
    Holds record ok (s.setIm im) records' fun j => stale j ∨ j = id :=
  ⟨hok, h.coherent.setIm im, hrecord, h.caches.setIm fun j hj => by rw [hrecord, h.agrees, hkept j hj]⟩

theorem Holds.content (h : Holds record ok s records stale) (hid : id < 2 ^ 31) (hfresh : ¬ stale id) :
    s.server.dataCache id = (records id).content := by
  rw [(h.caches id hid hfresh).1, h.agrees]

theorem Holds.attr (h : Holds record ok s records stale) (hid : id < 2 ^ 31) (hfresh : ¬ stale id) :
    s.server.attrCache id = (records id).attr := by
  rw [(h.caches id hid hfresh).2, h.agrees]

theorem stored_of_ne {now : Times} {j : Nat} (hj : j ≠ id) : stored records id buf now j = records j :=
  Function.update_of_ne hj ..

theorem Holds.writeFile (h : Holds record ok s records stale) (hm : Keeper m record ok limit capacity) (env : Env)
    (hid : id < INODE_NUM) (htype : (records id).type ≠ 0) (hbuf : buf.length ≤ limit)
    (hroom : used (stored records id buf env.now) ≤ capacity) :
    ∃ s', s.writeFile m env id buf = some s' ∧
      Holds record ok s' (stored records id buf env.now) (fun j => stale j ∨ j = id) := by
  rw [← h.agrees] at htype hroom
  obtain ⟨im, hwrite, hok, hrecord⟩ := hm.writeFile env id buf s.server.im h.valid hid htype hbuf hroom
  rw [h.agrees] at hrecord
  refine ⟨s.setIm im, ?_, h.setIm hok hrecord fun j hj => stored_of_ne hj⟩
  rw [System.writeFile, Nat.mod_eq_of_lt (hid.trans (by decide)), hwrite]
  rfl

-- update_cache brings one inode up to date.
theorem Holds.updateCache (h : Holds record ok s records stale) (hm : Keeper m record ok limit capacity) (env : Env)
    (hid : id < 2 ^ 31) :
    ∃ s', s.updateCache m env id = some s' ∧ Holds record ok s' records (fun j => stale j ∧ j ≠ id) := by
  obtain ⟨buf, hread, hcontent⟩ := hm.readFile env id s.server.im h.valid
  have hattr := hm.getattr id s.server.im h.valid
  have hrun : s.updateCache m env id = some (System.broadcast { s with server := { s.server with
      dataCache := Function.update s.server.dataCache id (record s.server.im id).content
      attrCache := Function.update s.server.attrCache id (record s.server.im id).attr } } id false) := by
    simp only [System.updateCache, mask_of_lt hid, hread, hattr, hcontent, Option.bind_eq_bind, Option.bind_some]
    rfl
  refine ⟨_, hrun, ?_⟩
  have hcoherent := h.coherent.updateCache hrun
  rw [broadcast_eq] at hcoherent ⊢
  refine ⟨h.valid, hcoherent, h.agrees, fun j hj hfresh => ?_⟩
  by_cases he : j = id
  · rw [he]
    exact ⟨Function.update_self .., Function.update_self ..⟩
  · obtain ⟨hdata, hattr⟩ := h.caches j hj fun hstale => hfresh ⟨hstale, he⟩
    exact ⟨(Function.update_of_ne he ..).trans hdata, (Function.update_of_ne he ..).trans hattr⟩

theorem lt_of_inode (h : id < INODE_NUM) : id < 2 ^ 31 := h.trans (by decide)

theorem Holds.put (h : Holds record ok s records stale) (hm : Keeper m record ok limit capacity) (env : Env)
    (c : Fin n) (hstale : ∀ j, stale j → j = id) (hid : id < INODE_NUM) (htype : (records id).type ≠ 0)
    (hbuf : buf.length ≤ limit) (hroom : used (stored records id buf env.now) ≤ capacity) :
    ∃ s', s.put m env c id buf = some s' ∧ Holds record ok s' (stored records id buf env.now) fresh := by
  have hlt := lt_of_inode hid
  obtain ⟨s₁, hwrite, h₁⟩ := h.writeFile hm env hid htype hbuf hroom
  obtain ⟨s₂, hupdate, h₂⟩ := h₁.updateCache hm env hlt
  refine ⟨s₂.insert c id, ?_, (h₂.mono fun j hj => hj.2 (hj.1.elim (hstale j) fun he => he)).insert c id⟩
  simp only [System.put, mask_of_lt hlt, hwrite, hupdate, Option.bind_eq_bind, Option.bind_some]
  rfl

-- The parent gets an entry for an inode whose copy is stale.
theorem Holds.link (h : Holds record ok s records (· = id)) (hm : Keeper m record ok limit capacity) (env : Env)
    (c : Fin n) (hid : id < INODE_NUM) (hparent : parent < INODE_NUM) (hne : parent ≠ id)
    (htype : (records parent).type ≠ 0) (hentry : (records parent).content ++ entry name id = buf)
    (hbuf : buf.length ≤ limit) (hroom : used (stored records parent buf env.now) ≤ capacity) :
    ∃ s', s.link m env c parent name id = some s' ∧ Holds record ok s' (stored records parent buf env.now) fresh := by
  obtain ⟨s₁, hwrite, h₁⟩ := h.writeFile hm env hparent htype hbuf hroom
  obtain ⟨s₂, hup, h₂⟩ := h₁.updateCache hm env (lt_of_inode hparent)
  obtain ⟨s₃, hdown, h₃⟩ := h₂.updateCache hm env (lt_of_inode hid)
  refine ⟨s₃.insert c id, ?_, (h₃.mono fun j hj => hj.1.1.elim hj.2 hj.1.2).insert c id⟩
  rw [← hentry, ← h.content (lt_of_inode hparent) hne] at hwrite
  simp only [System.link, hwrite, hup, hdown, Option.bind_eq_bind, Option.bind_some]
  rfl

theorem Holds.alloc (h : Holds record ok s records fresh) (hm : Keeper m record ok limit capacity) (type : UInt32)
    (hfree : firstFree (fun i => (records i).type) = some id) :
    ∃ im, m.allocInode type s.server.im = some (id, im) ∧
      Holds record ok (s.setIm im) (Function.update records id { type := type.toUInt16 }) (· = id) := by
  have htypes : types record s.server.im = fun i => (records i).type := by
    funext i
    rw [types, h.agrees]
  obtain ⟨im, halloc, hok, hrecord⟩ := hm.allocInode type id s.server.im h.valid (by rw [htypes, hfree])
  rw [h.agrees] at hrecord
  have hset := h.setIm hok hrecord fun j hj => Function.update_of_ne hj ..
  exact ⟨im, halloc, hset.mono fun j hj => hj.resolve_left fun hf => hf⟩

-- The records once a new inode has its entry in parent.
def linked (records : Nat → Record) (id parent : Nat) (name : Bytes) (new : Record) (now : Times) : Nat → Record :=
  stored (Function.update records id new) parent ((records parent).content ++ entry name id) now

-- The parent does not lose blocks.
theorem used_le_linked {new : Record} {now : Times} (hparent : parent < INODE_NUM)
    (hne : parent ≠ id) : used (Function.update records id new) ≤ used (linked records id parent name new now) := by
  have hused := used_update (Function.update records id new) hparent
    ⟨(Function.update records id new parent).type, (records parent).content ++ entry name id, now⟩
  rw [Function.update_of_ne hne] at hused
  dsimp only at hused
  have hmono := InodeManager.blocksNum_mono (Nat.le_add_right (records parent).content.length (entry name id).length)
  rw [← List.length_append] at hmono
  rw [linked, stored, Function.update_of_ne hne]
  omega

-- A record that has the type of another one takes its place.
theorem stored_update {type : UInt16} {now : Times} :
    stored (Function.update records id { type := type }) id buf now = Function.update records id ⟨type, buf, now⟩ := by
  rw [stored, Function.update_idem, Function.update_self]

theorem Holds.create (h : Holds record ok s records fresh) (hm : Keeper m record ok limit capacity) (env : Env)
    (c : Fin n) (type : UInt32) (hfree : firstFree (fun i => (records i).type) = some id) (hparent : parent < INODE_NUM)
    (htype : (records parent).type ≠ 0) (hbuf : ((records parent).content ++ entry name id).length ≤ limit)
    (hroom : used (linked records id parent name { type := type.toUInt16 } env.now) ≤ capacity) :
    ∃ s', s.create m env c type parent name = some (.id id, s') ∧
      Holds record ok s' (linked records id parent name { type := type.toUInt16 } env.now) fresh := by
  obtain ⟨-, hid, hzero, -⟩ := firstFree_bounds hfree
  have hne : parent ≠ id := by
    rintro rfl
    exact htype hzero
  have hsame : Function.update records id { type := type.toUInt16 } parent = records parent :=
    Function.update_of_ne hne ..
  obtain ⟨im, halloc, h₁⟩ := h.alloc hm type hfree
  obtain ⟨s', hlink, h'⟩ := h₁.link hm env c hid hparent hne (by rwa [hsame]) (by rw [hsame]) hbuf hroom
  refine ⟨s', ?_, h'⟩
  simp only [System.create, halloc, hlink, if_neg hid.ne, Option.bind_eq_bind, Option.bind_some]
  rfl

theorem Holds.createSymLink {link : Bytes} (h : Holds record ok s records fresh)
    (hm : Keeper m record ok limit capacity) (env : Env) (c : Fin n)
    (hfree : firstFree (fun i => (records i).type) = some id) (hparent : parent < INODE_NUM)
    (htype : (records parent).type ≠ 0) (hlink : link.length ≤ limit)
    (hbuf : ((records parent).content ++ entry name id).length ≤ limit)
    (hroom : used (linked records id parent name ⟨T_SYMLINK.toUInt16, link, env.now⟩ env.now) ≤ capacity) :
    ∃ s', s.createSymLink m env c parent name link = some (.id id, s') ∧
      Holds record ok s' (linked records id parent name ⟨T_SYMLINK.toUInt16, link, env.now⟩ env.now) fresh := by
  obtain ⟨-, hid, hzero, -⟩ := firstFree_bounds hfree
  have hne : parent ≠ id := by
    rintro rfl
    exact htype hzero
  have hsame : Function.update records id ⟨T_SYMLINK.toUInt16, link, env.now⟩ parent = records parent :=
    Function.update_of_ne hne ..
  obtain ⟨im, halloc, h₁⟩ := h.alloc hm T_SYMLINK hfree
  have hkind : (Function.update records id { type := T_SYMLINK.toUInt16 } id).type ≠ 0 := by
    rw [Function.update_self]
    decide
  have hfirst := (used_le_linked hparent hne).trans hroom
  rw [← stored_update] at hfirst
  obtain ⟨s₂, hwrite, h₂⟩ := h₁.writeFile hm env hid hkind hlink hfirst
  rw [stored_update] at h₂
  obtain ⟨s', hdone, h'⟩ := (h₂.mono fun j hj => hj.elim (fun he => he) fun he => he).link hm env c hid hparent hne
    (by rwa [hsame]) (by rw [hsame]) hbuf hroom
  refine ⟨s', ?_, h'⟩
  simp only [System.createSymLink, halloc, hwrite, hdone, Option.bind_eq_bind, Option.bind_some]
  rfl

-- The inode goes, and its parent gets the content that is left.
theorem Holds.remove (h : Holds record ok s records fresh) (hm : Keeper m record ok limit capacity) (env : Env)
    (c : Fin n) (hid : id < INODE_NUM) (hkind : (records id).type ≠ 0) (hparent : parent < INODE_NUM)
    (htype : (records parent).type ≠ 0) (hne : parent ≠ id)
    (herase : eraseEntry (records parent).content name = some buf) (hbuf : buf.length ≤ limit)
    (hroom : used (stored (Function.update records id {}) parent buf env.now) ≤ capacity) :
    ∃ s', s.remove m env c parent name id = some s' ∧
      Holds record ok s' (stored (Function.update records id {}) parent buf env.now) fresh := by
  have hlt := lt_of_inode hid
  have hsame : Function.update records id {} parent = records parent := Function.update_of_ne hne ..
  rw [← h.agrees] at hkind
  obtain ⟨im, hremove, hok, hrecord⟩ := hm.removeFile env id s.server.im h.valid hid hkind
  rw [h.agrees] at hrecord
  have h₁ := h.setIm hok hrecord fun j hj => Function.update_of_ne hj ..
  obtain ⟨s₂, hwrite, h₂⟩ := h₁.writeFile hm env hparent (by rwa [hsame]) hbuf hroom
  obtain ⟨s₃, hupdate, h₃⟩ := h₂.updateCache hm env (lt_of_inode hparent)
  have hrun : s.remove m env c parent name id = some (((s₃.erase id).broadcast id true).insert c id) := by
    rw [← h.content (lt_of_inode hparent) fun hf => hf] at herase
    simp only [System.remove, System.removed, mask_of_lt hlt, hremove, herase, hwrite, hupdate, Option.bind_eq_bind, Option.bind_some]
    rfl
  refine ⟨_, hrun, Holds.insert ?_ c id⟩
  have hcoherent : Coherent ((s₃.erase id).broadcast id true) := by
    refine h₃.coherent.broadcast true rfl rfl (fun j hj => ?_) fun j hj => ?_
    · exact Function.update_of_ne hj ..
    · exact Function.update_of_ne hj ..
  -- what erase leaves in the caches is the record of a free inode
  have hgone : record s₃.server.im id = {} := by
    rw [h₃.agrees, stored_of_ne hne.symm, Function.update_self]
  rw [broadcast_eq] at hcoherent ⊢
  refine ⟨h₃.valid, hcoherent, h₃.agrees, fun j hj _ => ?_⟩
  show Function.update s₃.server.dataCache id [] j = (record s₃.server.im j).content ∧
    Function.update s₃.server.attrCache id {} j = (record s₃.server.im j).attr
  by_cases he : j = id
  · subst he
    rw [hgone, Function.update_self, Function.update_self]
    exact ⟨rfl, rfl⟩
  · rw [Function.update_of_ne he, Function.update_of_ne he]
    refine h₃.caches j hj fun hstale => ?_
    exact hstale.1.elim (fun hold => hold.elim (fun hf => hf) he) hstale.2

-- What a client gets, and that getting changes nothing.
theorem Holds.clientGet (h : Holds record ok s records fresh) (c : Fin n) (hid : id < 2 ^ 31) :
    (s.clientGet c id).1 = (records id).content ∧ Holds record ok (s.clientGet c id).2 records fresh := by
  obtain ⟨hbuf, hcoherent⟩ := h.coherent.clientGet c id
  refine ⟨hbuf.trans (h.content hid fun hf => hf), ?_⟩
  rw [System.clientGet] at hcoherent ⊢
  split
  · exact h
  · next hnone =>
      simp only [hnone] at hcoherent
      exact ⟨h.valid, hcoherent, h.agrees, h.caches⟩

theorem Holds.clientGetattr (h : Holds record ok s records fresh) (c : Fin n) (hid : id < 2 ^ 31) :
    (s.clientGetattr c id).1 = (records id).attr ∧ Holds record ok (s.clientGetattr c id).2 records fresh := by
  obtain ⟨hattr, hcoherent⟩ := h.coherent.clientGetattr c id
  refine ⟨hattr.trans (h.attr hid fun hf => hf), ?_⟩
  rw [System.clientGetattr] at hcoherent ⊢
  split
  · exact h
  · next hnone =>
      simp only [hnone] at hcoherent
      exact ⟨h.valid, hcoherent, h.agrees, h.caches⟩

end System

end CseLabs.ExtentService
