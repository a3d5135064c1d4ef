import CseLabs.ExtentService.Coherence

namespace CseLabs.ExtentService

open InodeManager (Bytes Times Attr T_DIR T_FILE INODE_NUM MAXFILE BLOCK_SIZE)
open Directory (entry)
open Extent (mask)

section Records

-- What an inode_manager is for: a content and attributes for every inode.
structure Record where
  type : UInt16 := 0
  content : Bytes := []
  times : Times := ⟨0, 0, 0⟩

def Record.attr (record : Record) : Attr where
  type := record.type.toInt16.toInt32.toUInt32
  atime := record.times.atime
  mtime := record.times.mtime
  ctime := record.times.ctime
  size := UInt32.ofNat record.content.length

-- Each call reads or changes the record of one inode.
structure Records {σ : Type} (m : Manager σ) (record : σ → Nat → Record) : Prop where
  outside : ∀ im id, INODE_NUM ≤ id → record im id = {}
  readFile : ∀ env id im, ∃ buf, m.readFile env id im = some buf ∧ buf.getD [] = (record im id).content
  getattr : ∀ id im, m.getattr id {} im = some (record im id).attr
  allocInode : ∀ type im id im', m.allocInode type im = some (id, im') →
    (record im id).type = 0 ∧ id < INODE_NUM ∧
      record im' = Function.update (record im) id { type := type.toUInt16 }
  writeFile : ∀ env id buf size im im', m.writeFile env id buf size im = some im' →
    record im' = if id < INODE_NUM then
      Function.update (record im) id { record im id with content := buf.take size.toNat, times := env.now }
    else record im
  removeFile : ∀ env id im im', m.removeFile env id im = some im' →
    record im' = Function.update (record im) id {}

-- The records themselves, as an inode_manager.
def recordManager : Manager (Nat → Record) where
  allocInode type im :=
    ((List.range' 1 (INODE_NUM - 1)).find? fun i => (im i).type == 0).map fun i =>
      (i, Function.update im i { type := type.toUInt16 })
  writeFile env inum buf size im :=
    if size < 0 ∨ MAXFILE * BLOCK_SIZE ≤ size then none
    else if inum < INODE_NUM then
      some (Function.update im inum { im inum with content := buf.take size.toNat, times := env.now })
    else some im
  readFile _ inum im := some (if inum < INODE_NUM then some (im inum).content else none)
  getattr inum a im := some (if inum < INODE_NUM then (im inum).attr else a)
  removeFile _ inum im :=
    if inum < INODE_NUM ∧ (im inum).type ≠ 0 then some (Function.update im inum {}) else none

def shown (im : Nat → Record) (id : Nat) : Record := if id < INODE_NUM then im id else {}

theorem shown_update (im : Nat → Record) {id : Nat} (hid : id < INODE_NUM) (record : Record) :
    shown (Function.update im id record) = Function.update (shown im) id record := by
  funext j
  by_cases hj : j = id
  · subst hj
    rw [shown, if_pos hid, Function.update_self, Function.update_self]
  · rw [shown, Function.update_of_ne hj, Function.update_of_ne hj, shown]

theorem recordManager_records : Records recordManager shown where
  outside im id hid := if_neg (not_lt.mpr hid)
  readFile env id im := by
    refine ⟨_, rfl, ?_⟩
    rw [shown]
    split <;> rfl
  getattr id im := by
    show some (if id < INODE_NUM then (im id).attr else {}) = _
    rw [shown]
    split <;> rfl
  allocInode type im id im' h := by
    obtain ⟨i, hfind, heq⟩ := Option.map_eq_some_iff.mp h
    cases heq
    have hlt : id < INODE_NUM := by
      have hmem := List.mem_range'_1.mp (List.mem_of_find?_eq_some hfind)
      have hnum : INODE_NUM = 1024 := rfl
      omega
    refine ⟨?_, hlt, shown_update im hlt _⟩
    rw [shown, if_pos hlt]
    simpa using List.find?_some hfind
  writeFile env id buf size im im' h := by
    simp only [recordManager] at h
    split at h
    · cases h
    · split at h
      · next hid =>
          cases h
          rw [shown_update im hid, if_pos hid, shown, if_pos hid]
      · next hid =>
          cases h
          rw [if_neg hid]
  removeFile env id im im' h := by
    simp only [recordManager] at h
    split at h
    · next hid =>
        cases h
        exact shown_update im hid.1 _
    · cases h

-- The type of every inode.
def types {σ : Type} (record : σ → Nat → Record) (im : σ) (i : Nat) : UInt16 := (record im i).type

-- The first inode whose type is 0.
def firstFree (type : Nat → UInt16) : Option Nat := (List.range' 1 (INODE_NUM - 1)).find? fun i => type i == 0

-- A store that has room: every content below the limit is written, and an inode is found as long
-- as there is one whose type is 0.
structure Stores {σ : Type} (m : Manager σ) (record : σ → Nat → Record) : Prop extends Records m record where
  writes : ∀ env id buf im, buf.length < MAXFILE * BLOCK_SIZE →
    ∃ im', m.writeFile env id buf (toInt buf.length) im = some im'
  takes : ∀ type im, (m.allocInode type im).map Prod.fst = firstFree (types record im)

theorem recordManager_stores : Stores recordManager shown where
  toRecords := recordManager_records
  writes env id buf im hbuf := by
    have hlimit : MAXFILE * BLOCK_SIZE < 2 ^ 31 := by decide
    have hsize := toInt_of_lt (hbuf.trans hlimit)
    simp only [recordManager, hsize]
    rw [if_neg (by omega)]
    split
    · exact ⟨_, rfl⟩
    · exact ⟨_, rfl⟩
  takes type im := by
    have hfind : firstFree (types shown im) =
        (List.range' 1 (INODE_NUM - 1)).find? fun i => (im i).type == 0 := by
      refine List.find?_congr fun i hi => ?_
      have hlt : i < INODE_NUM := by
        have hnum : INODE_NUM = 1024 := rfl
        have hmem := List.mem_range'_1.mp hi
        omega
      rw [types, shown, if_pos hlt]
    rw [hfind]
    show Option.map Prod.fst (Option.map _ _) = _
    rw [Option.map_map]
    exact Option.map_id'

-- alloc_inode of the repository takes the same one.
theorem disk_takes (type : UInt32) (im : InodeManager.Fs) :
    (diskManager.allocInode type im).map Prod.fst = firstFree fun i => (im.inode i).type := by
  show (result (InodeManager.allocInode type im)).map Prod.fst = _
  have hnum : INODE_NUM = 1024 := rfl
  rcases InodeManager.allocInode_cases type im with ⟨k, hlo, hhi, hbefore, hfree, hrun⟩ | ⟨hfull, hrun⟩
  · rw [hrun]
    refine (List.find?_range'_eq_some.mpr ⟨by simp [hfree], List.mem_range'_1.mpr (by omega), fun j hj hlt => ?_⟩).symm
    simpa using hbefore j hj hlt
  · rw [hrun]
    refine (List.find?_eq_none.mpr fun i hi => ?_).symm
    have hmem := List.mem_range'_1.mp hi
    have htype := hfull i (by omega) (by omega)
    simpa using htype

end Records

section Transparent

variable {σ : Type} {n : Nat} {s s' : System σ n} {m : Manager σ} {env : Env} {record : σ → Nat → Record}

-- The lines of get and getattr that are commented out.
def System.directGet (m : Manager σ) (env : Env) (s : System σ n) (id : Nat) : Option Bytes := do
  let id := mask id
  let buf ← m.readFile env id s.server.im
  pure (buf.getD [])

def System.directGetattr (m : Manager σ) (s : System σ n) (id : Nat) : Option Attr :=
  m.getattr (mask id) {} s.server.im

-- The copies that are not stale are those of the records.
def UpToDate (record : σ → Nat → Record) (s : System σ n) (stale : Nat → Prop) : Prop :=
  ∀ id < 2 ^ 31, ¬ stale id →
    s.server.dataCache id = (record s.server.im id).content ∧ s.server.attrCache id = (record s.server.im id).attr

theorem mask_of_lt {id : Nat} (h : id < 2 ^ 31) : mask id = id := by
  have hmod : mask id = id % 2 ^ 31 := Nat.and_two_pow_sub_one_eq_mod id 31
  rw [hmod, Nat.mod_eq_of_lt h]

theorem UpToDate.mono {stale stale' : Nat → Prop} (h : UpToDate record s stale) (hmore : ∀ id, stale id → stale' id) :
    UpToDate record s stale' :=
  fun id hid hfresh => h id hid fun hstale => hfresh (hmore id hstale)

theorem UpToDate.insert {stale : Nat → Prop} (h : UpToDate record s stale) (c : Fin n) (id : Nat) :
    UpToDate record (s.insert c id) stale := h

-- The record of one inode changes.
theorem UpToDate.setIm {stale : Nat → Prop} {im : σ} {id : Nat} (h : UpToDate record s stale)
    (hrecord : ∀ j, j ≠ id → record im j = record s.server.im j) :
    UpToDate record (s.setIm im) fun j => stale j ∨ j = id := by
  intro j hj hfresh
  rw [not_or] at hfresh
  show s.server.dataCache j = (record im j).content ∧ s.server.attrCache j = (record im j).attr
  rw [hrecord j hfresh.2]
  exact h j hj hfresh.1

theorem writeFile_eq_some (hm : Records m record) {id : Nat} {buf : Bytes} (hid : id < 2 ^ 31)
    (hrun : s.writeFile m env id buf = some s') :
    ∃ im, s' = s.setIm im ∧ ∀ j, j ≠ id → record im j = record s.server.im j := by
  simp only [System.writeFile, Option.bind_eq_bind, Option.bind_eq_some_iff] at hrun
  obtain ⟨im, hwrite, hrun⟩ := hrun
  cases hrun
  refine ⟨im, rfl, fun j hj => ?_⟩
  rw [Nat.mod_eq_of_lt (hid.trans (by decide))] at hwrite
  rw [hm.writeFile _ _ _ _ _ _ hwrite]
  split
  · exact Function.update_of_ne hj ..
  · rfl

theorem UpToDate.writeFile {stale : Nat → Prop} {id : Nat} {buf : Bytes} (h : UpToDate record s stale)
    (hm : Records m record) (hid : id < 2 ^ 31) (hrun : s.writeFile m env id buf = some s') :
    UpToDate record s' fun j => stale j ∨ j = id := by
  obtain ⟨im, rfl, hrecord⟩ := writeFile_eq_some hm hid hrun
  exact h.setIm hrecord

theorem updateCache_server (hm : Records m record) {id : Nat} (hid : id < 2 ^ 31)
    (hrun : s.updateCache m env id = some s') :
    s'.server = { s.server with
      dataCache := Function.update s.server.dataCache id (record s.server.im id).content
      attrCache := Function.update s.server.attrCache id (record s.server.im id).attr } := by
  simp only [System.updateCache, mask_of_lt hid, Option.bind_eq_bind, Option.bind_eq_some_iff] at hrun
  obtain ⟨buf, hread, attr, hattr, hrun⟩ := hrun
  cases hrun
  obtain ⟨buf', hread', hcontent⟩ := hm.readFile env id s.server.im
  rw [hread'] at hread
  cases hread
  rw [hm.getattr] at hattr
  cases hattr
  rw [broadcast_eq, hcontent]

-- update_cache brings one inode up to date.
theorem UpToDate.updateCache {stale : Nat → Prop} {id : Nat} (h : UpToDate record s stale) (hm : Records m record)
    (hid : id < 2 ^ 31) (hrun : s.updateCache m env id = some s') :
    UpToDate record s' fun j => stale j ∧ j ≠ id := by
  have hserver := updateCache_server hm hid hrun
  intro j hj hfresh
  rw [hserver]
  by_cases he : j = id
  · subst he
    exact ⟨Function.update_self .., Function.update_self ..⟩
  · obtain ⟨hdata, hattr⟩ := h j hj fun hstale => hfresh ⟨hstale, he⟩
    exact ⟨(Function.update_of_ne he ..).trans hdata, (Function.update_of_ne he ..).trans hattr⟩

def fresh : Nat → Prop := fun _ => False

theorem UpToDate.put {c : Fin n} {id : Nat} {buf : Bytes} {stale : Nat → Prop} (h : UpToDate record s stale)
    (hm : Records m record) (hid : id < 2 ^ 31) (hstale : ∀ j, stale j → j = id)
    (hrun : s.put m env c id buf = some s') : UpToDate record s' fresh := by
  simp only [System.put, mask_of_lt hid, Option.bind_eq_bind, Option.bind_eq_some_iff] at hrun
  obtain ⟨s₁, hwrite, s₂, hupdate, hrun⟩ := hrun
  cases hrun
  have hdone := ((h.writeFile hm hid hwrite).updateCache hm hid hupdate).insert c id
  exact hdone.mono fun j hj => hj.2 (hj.1.elim (hstale j) fun he => he)

-- An inode has been allocated, and goes into its parent.
theorem UpToDate.link {c : Fin n} {parent id : Nat} {name : Bytes} (h : UpToDate record s fun j => j = id)
    (hm : Records m record) (hparent : parent < 2 ^ 31) (hid : id < 2 ^ 31)
    (hrun : s.link m env c parent name id = some s') : UpToDate record s' fresh := by
  simp only [System.link, Option.bind_eq_bind, Option.bind_eq_some_iff] at hrun
  obtain ⟨s₁, hwrite, s₂, hup, s₃, hdown, hrun⟩ := hrun
  cases hrun
  have hdone := ((h.writeFile hm hparent hwrite).updateCache hm hparent hup).updateCache hm hid hdown
  refine (hdone.insert c id).mono fun j hj => ?_
  exact hj.1.1.elim hj.2 hj.1.2

theorem UpToDate.alloc {type : UInt32} {id : Nat} {im : σ} (h : UpToDate record s fresh) (hm : Records m record)
    (halloc : m.allocInode type s.server.im = some (id, im)) :
    UpToDate record (s.setIm im) (fun j => j = id) ∧ id < 2 ^ 31 := by
  obtain ⟨-, hid, hrecord⟩ := hm.allocInode _ _ _ _ halloc
  have hset : UpToDate record (s.setIm im) fun j => fresh j ∨ j = id :=
    h.setIm fun j hj => by rw [hrecord, Function.update_of_ne hj]
  exact ⟨hset.mono fun j hj => hj.resolve_left fun hf => hf, hid.trans (by decide)⟩

theorem UpToDate.create {c : Fin n} {type : UInt32} {parent : Nat} {name : Bytes} {reply : Reply}
    (h : UpToDate record s fresh) (hm : Records m record) (hparent : parent < 2 ^ 31)
    (hrun : s.create m env c type parent name = some (reply, s')) : UpToDate record s' fresh := by
  simp only [System.create, Option.bind_eq_bind, Option.bind_eq_some_iff] at hrun
  obtain ⟨⟨id, im⟩, halloc, hrun⟩ := hrun
  obtain ⟨hstale, hid⟩ := h.alloc hm halloc
  dsimp only at hrun
  split at hrun
  · next hnum => exact absurd hnum (hm.allocInode _ _ _ _ halloc).2.1.ne
  · obtain ⟨s₁, hlink, hrun⟩ := Option.bind_eq_some_iff.mp hrun
    cases hrun
    exact hstale.link hm hparent hid hlink

theorem UpToDate.createSymLink {c : Fin n} {parent : Nat} {name link : Bytes} {reply : Reply}
    (h : UpToDate record s fresh) (hm : Records m record) (hparent : parent < 2 ^ 31)
    (hrun : s.createSymLink m env c parent name link = some (reply, s')) : UpToDate record s' fresh := by
  simp only [System.createSymLink, Option.bind_eq_bind, Option.bind_eq_some_iff] at hrun
  obtain ⟨⟨id, im⟩, halloc, s₁, hwrite, s₂, hlink, hrun⟩ := hrun
  cases hrun
  obtain ⟨hstale, hid⟩ := h.alloc hm halloc
  have hwritten := (hstale.writeFile hm hid hwrite).mono fun j hj => hj.elim (fun he => he) fun he => he
  exact hwritten.link hm hparent hid hlink

-- The record of a removed inode is the default, and so are the copies erase leaves.
theorem UpToDate.remove {c : Fin n} {parent id : Nat} {name : Bytes} (h : UpToDate record s fresh)
    (hm : Records m record) (hparent : parent < 2 ^ 31) (hid : id < 2 ^ 31) (hne : parent ≠ id)
    (hrun : s.remove m env c parent name id = some s') : UpToDate record s' fresh := by
  simp only [System.remove, mask_of_lt hid, Option.bind_eq_bind, Option.bind_eq_some_iff] at hrun
  obtain ⟨im, hremove, buf, -, s₁, hwrite, s₂, hupdate, hrun⟩ := hrun
  cases hrun
  have hrecord := hm.removeFile _ _ _ _ hremove
  have hstale : UpToDate record (s.setIm im) fun j => fresh j ∨ j = id :=
    h.setIm fun j hj => by rw [hrecord, Function.update_of_ne hj]
  have hothers := (hstale.writeFile hm hparent hwrite).updateCache hm hparent hupdate
  have hserver := updateCache_server hm hparent hupdate
  obtain ⟨im', rfl, hkept⟩ := writeFile_eq_some hm hparent hwrite
  have hgone : record s₂.server.im id = {} := by
    rw [hserver]
    show record im' id = {}
    rw [hkept id hne.symm]
    show record im id = {}
    rw [hrecord, Function.update_self]
  refine UpToDate.insert ?_ c id
  rw [broadcast_eq]
  intro j hj _
  show Function.update s₂.server.dataCache id [] j = (record s₂.server.im j).content ∧
    Function.update s₂.server.attrCache id {} j = (record s₂.server.im j).attr
  by_cases he : j = id
  · subst he
    rw [hgone, Function.update_self, Function.update_self]
    exact ⟨rfl, rfl⟩
  · rw [Function.update_of_ne he, Function.update_of_ne he]
    refine hothers j hj fun hold => ?_
    exact hold.1.elim (fun hold => hold.elim (fun hf => hf) he) hold.2

-- The ids are below 2^31, and nobody removes an inode from itself.
def Proper : Request → Prop
  | .get id => id < 2 ^ 31
  | .getattr id => id < 2 ^ 31
  | .put id _ => id < 2 ^ 31
  | .create _ parent _ => parent < 2 ^ 31
  | .createSymLink parent _ _ => parent < 2 ^ 31
  | .remove parent _ id => parent < 2 ^ 31 ∧ id < 2 ^ 31 ∧ parent ≠ id

instance (request : Request) : Decidable (Proper request) :=
  match request with
  | .get id => inferInstanceAs (Decidable (id < 2 ^ 31))
  | .getattr id => inferInstanceAs (Decidable (id < 2 ^ 31))
  | .put id _ => inferInstanceAs (Decidable (id < 2 ^ 31))
  | .create _ parent _ => inferInstanceAs (Decidable (parent < 2 ^ 31))
  | .createSymLink parent _ _ => inferInstanceAs (Decidable (parent < 2 ^ 31))
  | .remove parent _ id => inferInstanceAs (Decidable (parent < 2 ^ 31 ∧ id < 2 ^ 31 ∧ parent ≠ id))

theorem UpToDate.handle {c : Fin n} {request : Request} {reply : Reply} (h : UpToDate record s fresh)
    (hm : Records m record) (hproper : Proper request) (hrun : s.handle m env c request = some (reply, s')) :
    UpToDate record s' fresh := by
  cases request with
  | get id =>
      cases hrun
      exact h.insert c id
  | getattr id =>
      cases hrun
      exact h.insert c id
  | put id buf =>
      obtain ⟨s₁, hput, hrun⟩ := Option.bind_eq_some_iff.mp hrun
      cases hrun
      exact h.put hm hproper (fun _ hf => hf.elim) hput
  | create type parent name => exact h.create hm hproper hrun
  | createSymLink parent name link => exact h.createSymLink hm hproper hrun
  | remove parent name id =>
      obtain ⟨s₁, hremove, hrun⟩ := Option.bind_eq_some_iff.mp hrun
      cases hrun
      exact h.remove hm hproper.1 hproper.2.1 hproper.2.2 hremove

-- The server after the put of the yfs_client constructor. The root is all that inode_manager()
-- has allocated.
def Started (m : Manager σ) (record : σ → Nat → Record) (s : System σ n) : Prop :=
  ∃ (s₀ : System σ n) (env : Env) (c : Fin n) (buf : Bytes), Empty s₀ ∧
    record s₀.server.im = Function.update (fun _ => {}) 1 { type := T_DIR.toUInt16 } ∧
    s₀.put m env c 1 buf = some s

theorem Started.upToDate (hm : Records m record) (h : Started m record s) : UpToDate record s fresh := by
  obtain ⟨s₀, env, c, buf, hempty, hrecord, hput⟩ := h
  have hstale : UpToDate record s₀ fun j => j = 1 := by
    intro j _ hj
    rw [hrecord, Function.update_of_ne hj, (hempty.2 j).1, (hempty.2 j).2]
    exact ⟨rfl, rfl⟩
  exact hstale.put hm (by decide) (fun _ hj => hj) hput

theorem server_cache_transparent (hm : Records m record)
    (hr : Reachable (Guarded (fun _ event => Proper event.request) fun s event s' => service m s event = some s')
      (Started m record) s) (env : Env) (c : Fin n) {id : Nat} (hid : id < 2 ^ 31) :
    (s.handle m env c (.get id)).map Prod.fst = (s.directGet m env id).map .data ∧
      (s.handle m env c (.getattr id)).map Prod.fst = (s.directGetattr m id).map .attr := by
  have h : UpToDate record s fresh := hr.invariant (UpToDate record · fresh) (fun _ => Started.upToDate hm)
    fun s event s' h hstep => by
      obtain ⟨⟨reply, s₁⟩, hrun, rfl⟩ := Option.map_eq_some_iff.mp hstep.2
      exact h.handle hm hstep.1 hrun
  obtain ⟨hdata, hattr⟩ := h id hid fun hf => hf
  constructor
  · obtain ⟨buf, hread, hcontent⟩ := hm.readFile env id s.server.im
    show some (Reply.data (s.server.dataCache id)) = (s.directGet m env id).map .data
    rw [System.directGet, mask_of_lt hid, hread, hdata, ← hcontent]
    rfl
  · show some (Reply.attr (s.server.attrCache id)) = (s.directGetattr m id).map .attr
    rw [System.directGetattr, mask_of_lt hid, hm.getattr, hattr]
    rfl

-- One client on records: the root is put, a file is created, written and removed.
def recordSystem : System (Nat → Record) 1 where
  server := {
    im := Function.update (fun _ => {}) 1 { type := T_DIR.toUInt16 }
    clients := fun _ _ => false, dataCache := fun _ => [], attrCache := fun _ => {} }
  client _ := ⟨fun _ => none, fun _ => none⟩

theorem server_cache_transparent_written : ∃ s : System (Nat → Record) 1,
    Reachable (Guarded (fun _ event => Proper event.request) fun s event s' => service recordManager s event = some s')
      (Started recordManager shown) s ∧ s.server.dataCache 2 = [7, 8] ∧
      (s.directGet recordManager someEnv 2).map Reply.data = some (.data [7, 8]) := by
  have hput : ((recordSystem.put recordManager someEnv 0 1 []).bind fun s =>
      execute (fun s event => if Proper event.request then service recordManager s event else none) s
        [⟨someEnv, 0, .create T_FILE 1 [97]⟩, ⟨someEnv, 0, .put 2 [7]⟩, ⟨someEnv, 0, .remove 1 [97] 2⟩,
          ⟨someEnv, 0, .create T_FILE 1 [98]⟩, ⟨someEnv, 0, .put 2 [7, 8]⟩]).map
      (fun s => s.server.dataCache 2) = some [7, 8] := by
    decide +kernel
  obtain ⟨s, hs, hdata⟩ := Option.map_eq_some_iff.mp hput
  obtain ⟨s₁, hfirst, hrest⟩ := Option.bind_eq_some_iff.mp hs
  have hroot : shown recordSystem.server.im = Function.update (fun _ => {}) 1 { type := T_DIR.toUInt16 } := by
    have hblank : shown (fun _ => {}) = fun _ => {} := by
      funext id
      rw [shown, ite_self]
    exact (shown_update _ (by decide) _).trans (by rw [hblank])
  have hstart : Started recordManager shown s₁ :=
    ⟨recordSystem, someEnv, 0, [], ⟨fun _ _ => ⟨rfl, rfl, rfl⟩, fun _ => ⟨rfl, rfl⟩⟩, hroot, hfirst⟩
  have hr : Reachable (Guarded (fun _ event => Proper event.request)
      fun s event s' => service recordManager s event = some s') (Started recordManager shown) s :=
    Reachable.executed (.start hstart) hrest
  obtain ⟨hget, -⟩ := server_cache_transparent recordManager_records hr someEnv 0 (show 2 < 2 ^ 31 by decide)
  refine ⟨s, hr, hdata, ?_⟩
  rw [← hget, ← hdata]
  rfl

end Transparent

section Stores

variable {σ : Type} {n : Nat} {m : Manager σ} {record : σ → Nat → Record} (env : Env) (s : System σ n)

theorem writeFile_stores (hm : Stores m record) {id : Nat} {buf : Bytes} (hid : id < INODE_NUM)
    (hbuf : buf.length < MAXFILE * BLOCK_SIZE) :
    ∃ im, s.writeFile m env id buf = some (s.setIm im) ∧
      record im = Function.update (record s.server.im) id
        { record s.server.im id with content := buf, times := env.now } := by
  obtain ⟨im, hwrite⟩ := hm.writes env id buf s.server.im hbuf
  have hlimit : MAXFILE * BLOCK_SIZE < 2 ^ 31 := by decide
  have hrecord := hm.writeFile _ _ _ _ _ _ hwrite
  rw [if_pos hid, toInt_of_lt (hbuf.trans hlimit), Int.toNat_natCast, List.take_length] at hrecord
  refine ⟨im, ?_, hrecord⟩
  rw [System.writeFile, Nat.mod_eq_of_lt (hid.trans (by decide)), hwrite]
  rfl

theorem updateCache_stores (hm : Records m record) {id : Nat} (hid : id < 2 ^ 31) :
    ∃ s', s.updateCache m env id = some s' ∧ s'.server = { s.server with
      dataCache := Function.update s.server.dataCache id (record s.server.im id).content
      attrCache := Function.update s.server.attrCache id (record s.server.im id).attr } := by
  obtain ⟨buf, hread, -⟩ := hm.readFile env id s.server.im
  have hsome : ∃ s', s.updateCache m env id = some s' := by
    simp only [System.updateCache, mask_of_lt hid, hread, hm.getattr, Option.bind_eq_bind, Option.bind_some]
    exact ⟨_, rfl⟩
  obtain ⟨s', hs'⟩ := hsome
  exact ⟨s', hs', updateCache_server hm hid hs'⟩

-- The server's copy is the last content put.
theorem put_stores (hm : Stores m record) (c : Fin n) {id : Nat} {buf : Bytes} (hid : id < INODE_NUM)
    (hbuf : buf.length < MAXFILE * BLOCK_SIZE) :
    ∃ s', s.put m env c id buf = some s' ∧
      s'.server.dataCache = Function.update s.server.dataCache id buf := by
  have hlt : id < 2 ^ 31 := hid.trans (by decide)
  obtain ⟨im, hwrite, hrecord⟩ := writeFile_stores env s hm hid hbuf
  obtain ⟨s₁, hupdate, hserver⟩ := updateCache_stores env (s.setIm im) hm.toRecords hlt
  refine ⟨s₁.insert c id, ?_, ?_⟩
  · simp only [System.put, mask_of_lt hlt, hwrite, hupdate, Option.bind_eq_bind, Option.bind_some]
    rfl
  · show s₁.server.dataCache = _
    rw [hserver]
    show Function.update s.server.dataCache id (record im id).content = _
    rw [hrecord, Function.update_self]

theorem types_content {im im' : σ} {id : Nat} {content : Bytes} {times : Times}
    (h : record im' = Function.update (record im) id { record im id with content := content, times := times }) :
    types record im' = types record im := by
  funext i
  rw [types, types, h]
  by_cases hi : i = id
  · rw [hi, Function.update_self]
  · rw [Function.update_of_ne hi]

theorem alloc_stores (hm : Stores m record) (type : UInt32) {id : Nat} {im : σ}
    (hfree : firstFree (types record im) = some id) :
    ∃ im', m.allocInode type im = some (id, im') ∧ id < INODE_NUM ∧ types record im id = 0 ∧
      types record im' = Function.update (types record im) id type.toUInt16 := by
  have htaken : (m.allocInode type im).map Prod.fst = some id := (hm.takes type im).trans hfree
  obtain ⟨⟨id', im'⟩, halloc, rfl⟩ := Option.map_eq_some_iff.mp htaken
  obtain ⟨hzero, hlt, hrecord⟩ := hm.allocInode _ _ _ _ halloc
  refine ⟨im', halloc, hlt, hzero, ?_⟩
  funext i
  rw [types, hrecord]
  by_cases hi : i = id'
  · rw [hi, Function.update_self, Function.update_self]
  · rw [Function.update_of_ne hi, Function.update_of_ne hi, types]

theorem link_stores (hm : Stores m record) (c : Fin n) {parent id : Nat} {name : Bytes} (hparent : parent < INODE_NUM)
    (hid : id < INODE_NUM) (hne : parent ≠ id)
    (hroom : (s.server.dataCache parent ++ entry name id).length < MAXFILE * BLOCK_SIZE) :
    ∃ s', s.link m env c parent name id = some s' ∧ types record s'.server.im = types record s.server.im ∧
      s'.server.dataCache parent = s.server.dataCache parent ++ entry name id := by
  obtain ⟨im, hwrite, hrecord⟩ := writeFile_stores env s hm hparent hroom
  obtain ⟨s₁, hup, hserver₁⟩ := updateCache_stores env (s.setIm im) hm.toRecords (hparent.trans (by decide))
  obtain ⟨s₂, hdown, hserver₂⟩ := updateCache_stores env s₁ hm.toRecords (hid.trans (by decide))
  have him : s₂.server.im = im := by rw [hserver₂, hserver₁]; rfl
  refine ⟨s₂.insert c id, ?_, ?_, ?_⟩
  · simp only [System.link, hwrite, hup, hdown, Option.bind_eq_bind, Option.bind_some]
    rfl
  · show types record s₂.server.im = _
    rw [him, types_content hrecord]
  · show s₂.server.dataCache parent = _
    rw [hserver₂]
    show Function.update s₁.server.dataCache id _ parent = _
    rw [Function.update_of_ne hne, hserver₁]
    show Function.update s.server.dataCache parent (record im parent).content parent = _
    rw [Function.update_self, hrecord, Function.update_self]

-- A new inode with its entry in the parent.
theorem create_stores (hm : Stores m record) (c : Fin n) (type : UInt32) {parent id : Nat} {name : Bytes}
    (hparent : parent < INODE_NUM) (hused : types record s.server.im parent ≠ 0)
    (hfree : firstFree (types record s.server.im) = some id)
    (hroom : (s.server.dataCache parent ++ entry name id).length < MAXFILE * BLOCK_SIZE) :
    ∃ s', s.create m env c type parent name = some (.id id, s') ∧
      types record s'.server.im = Function.update (types record s.server.im) id type.toUInt16 ∧
        s'.server.dataCache parent = s.server.dataCache parent ++ entry name id := by
  obtain ⟨im, halloc, hid, hzero, htypes⟩ := alloc_stores hm type hfree
  have hne : parent ≠ id := by
    rintro rfl
    exact hused hzero
  obtain ⟨s', hlink, hkept, hcontent⟩ := link_stores env (s.setIm im) hm c hparent hid hne hroom
  refine ⟨s', ?_, hkept.trans htypes, hcontent⟩
  simp only [System.create, halloc, hlink, if_neg hid.ne, Option.bind_eq_bind, Option.bind_some]
  rfl

theorem createSymLink_stores (hm : Stores m record) (c : Fin n) {parent id : Nat} {name link : Bytes}
    (hparent : parent < INODE_NUM) (hused : types record s.server.im parent ≠ 0)
    (hfree : firstFree (types record s.server.im) = some id) (hlink : link.length < MAXFILE * BLOCK_SIZE)
    (hroom : (s.server.dataCache parent ++ entry name id).length < MAXFILE * BLOCK_SIZE) :
    ∃ s', s.createSymLink m env c parent name link = some (.id id, s') ∧
      types record s'.server.im = Function.update (types record s.server.im) id InodeManager.T_SYMLINK.toUInt16 ∧
        s'.server.dataCache parent = s.server.dataCache parent ++ entry name id := by
  obtain ⟨im, halloc, hid, hzero, htypes⟩ := alloc_stores hm InodeManager.T_SYMLINK hfree
  have hne : parent ≠ id := by
    rintro rfl
    exact hused hzero
  obtain ⟨im', hwrite, hrecord⟩ := writeFile_stores env (s.setIm im) hm hid hlink
  obtain ⟨s', hdone, hkept, hcontent⟩ := link_stores env ((s.setIm im).setIm im') hm c hparent hid hne hroom
  refine ⟨s', ?_, ?_, hcontent⟩
  · simp only [System.createSymLink, halloc, hwrite, hdone, Option.bind_eq_bind, Option.bind_some]
    rfl
  · rw [hkept]
    exact (types_content hrecord).trans htypes

end Stores

end CseLabs.ExtentService
