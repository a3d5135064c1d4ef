import CseLabs.Yfs.Coherence

namespace CseLabs.Yfs

open InodeManager (Bytes Stack Times Fs T_DIR T_FILE INODE_NUM)
open Directory (Dirent COLON entry encode)
open Extent

variable {n : Nat} {s s' : Sys n}

section Directories

def IsDir (im : Fs) (id : Nat) : Prop := im.Live id ∧ (im.inode id).type = T_DIR.toUInt16

-- Entries with distinct names that hold no colon.
def DirOk (buf : Bytes) : Prop :=
  ∃ entries, Directory.Plain entries ∧ (entries.map Dirent.name).Nodup ∧ buf = encode entries

theorem dirOk_nil : DirOk [] := ⟨[], fun _ he => absurd he List.not_mem_nil, List.nodup_nil, rfl⟩

theorem DirOk.readdir_nodup {buf : Bytes} (h : DirOk buf) {entries : List Dirent}
    (hread : Directory.readdir buf = some entries) : (entries.map Dirent.name).Nodup := by
  obtain ⟨entries', hplain, hnodup, rfl⟩ := h
  rw [Directory.readdir_encode hplain] at hread
  cases hread
  exact hnodup

-- An entry whose name lookup does not find.
theorem DirOk.append {buf name : Bytes} {id : Nat} (h : DirOk buf) (hname : COLON ∉ name) (hid : id < INODE_NUM)
    (hlookup : Directory.lookup buf name = some none) : DirOk (buf ++ entry name id) := by
  obtain ⟨entries, hplain, hnodup, rfl⟩ := h
  have hnew : name ∉ entries.map Dirent.name := by
    rw [Directory.lookup_encode hplain, Option.some.injEq, Option.map_eq_none_iff, List.find?_eq_none] at hlookup
    intro hmem
    obtain ⟨e, he, rfl⟩ := List.mem_map.mp hmem
    exact hlookup e he (by simp)
  refine ⟨entries ++ [⟨name, id⟩], fun e he => ?_, ?_, ?_⟩
  · rcases List.mem_append.mp he with he | he
    · exact hplain e he
    · rw [List.mem_singleton.mp he]
      exact ⟨hname, hid.trans (by decide)⟩
  · rw [List.map_append, List.nodup_append]
    refine ⟨hnodup, List.nodup_singleton _, fun a ha b hb hab => ?_⟩
    rw [List.map_singleton, List.mem_singleton] at hb
    rw [hab, hb] at ha
    exact hnew ha
  · rw [Directory.encode_append]
    simp [encode]

end Directories

section Runs

-- The requests are for inodes of the right kind.
def Legal (s : Sys n) : Event n → Prop
  | .start _ op => op.Fits s.server.im
  | _ => True

instance (s : Sys n) (event : Event n) : Decidable (Legal s event) :=
  match event with
  | .start _ op => inferInstanceAs (Decidable (op.Fits s.server.im))
  | .acquire _ => inferInstanceAs (Decidable True)
  | .look _ => inferInstanceAs (Decidable True)
  | .serve _ _ _ => inferInstanceAs (Decidable True)
  | .update _ => inferInstanceAs (Decidable True)
  | .ack _ _ => inferInstanceAs (Decidable True)
  | .reply _ => inferInstanceAs (Decidable True)
  | .finish _ => inferInstanceAs (Decidable True)

theorem Legal.fits {event : Event n} (h : Legal s event) (c : Fin n) (op : Op) (hevent : event = .start c op) :
    op.Fits s.server.im := by
  subst hevent
  exact h

-- create, mkdir, symlink, lookup and readdir
def Op.onDir : Op → Bool
  | .file _ _ => false
  | _ => true

def Event.onDir : Event n → Bool
  | .start _ op => op.onDir
  | _ => true

-- The name to be entered holds no colon.
def Op.PlainName : Op → Prop
  | .create _ name => COLON ∉ name
  | .mkdir _ name => COLON ∉ name
  | .symlink _ name _ => COLON ∉ name
  | _ => True

instance : (op : Op) → Decidable op.PlainName
  | .create _ name | .mkdir _ name | .symlink _ name _ => inferInstanceAs (Decidable (COLON ∉ name))
  | .lookup _ _ | .readdir _ | .file _ _ => inferInstanceAs (Decidable True)

def PlainNames (event : Event n) : Prop := ∀ c op, event = .start c op → op.PlainName

instance (event : Event n) : Decidable (PlainNames event) :=
  match event with
  | .start _ op => decidable_of_iff op.PlainName ⟨fun h _ _ heq => by cases heq; exact h, fun h => h _ _ rfl⟩
  | .acquire _ | .look _ | .serve _ _ _ | .update _ | .ack _ _ | .reply _ | .finish _ =>
      .isTrue fun _ _ heq => by cases heq

-- No operation is under way, the store has been reached by calls that found their indirect
-- blocks free to use, and no directory has two entries of one name.
structure Start (s : Sys n) : Prop where
  quiet : Quiet s
  store : Reachable (Guarded (fun im event => InodeManager.Legal im event ∧ InodeManager.FreshIndirect im event)
    InodeManager.Step) InodeManager.Initial s.server.im
  dirs : ∀ d, IsDir s.server.im d → DirOk (s.server.dataCache d)

def UniqueNames (s : Sys n) : Prop :=
  ∀ d entries, IsDir s.server.im d → Directory.readdir (s.server.dataCache d) = some entries →
    (entries.map Dirent.name).Nodup

end Runs

section Invariant

structure DirsOk (s : Sys n) : Prop where
  inv : Inv s
  names : ∀ c op, (s.pc c).op = some op → op.PlainName
  dirs : ∀ d, IsDir s.server.im d → DirOk (s.server.dataCache d)

-- Directories the server has not changed, and new ones.
theorem dirs_grow {server server' : Server n} {changed : Nat → Prop}
    (h : ∀ d, IsDir server.im d → DirOk (server.dataCache d)) (hgrows : Grows server server' changed)
    (hchanged : ∀ d, changed d → IsDir server.im d → DirOk (server'.dataCache d)) :
    ∀ d, IsDir server'.im d → DirOk (server'.dataCache d) := by
  intro d hdir
  have hreadable : Readable server'.im d := ⟨hdir.1, hdir.2 ▸ by decide⟩
  by_cases hlive : server.im.Live d
  · have hold : IsDir server.im d := ⟨hlive, (hgrows.keeps d hlive).symm.trans hdir.2⟩
    by_cases hd : changed d
    · exact hchanged d hd hold
    · rw [hgrows.data d ⟨hlive, hold.2 ▸ by decide⟩ hd]
      exact h d hold
  · rw [hgrows.fresh d hlive hreadable]
    exact dirOk_nil

-- A directory gets an entry only for a name that is not there.
theorem dirOk_of_call {op : Op} {req : Request} {result : Reply → Result} {content buf : Bytes} {im : Fs}
    (hfits : op.Fits im) (hdir : IsDir im op.ino) (hname : op.PlainName) (hcontent : DirOk content)
    (hnext : op.next content = some (.call req result)) (hwritten : Written content buf req) : DirOk buf := by
  cases op with
  | file ino op =>
      have htype : T_FILE.toUInt16 = T_DIR.toUInt16 := hfits.2.symm.trans hdir.2
      exact absurd htype (by decide)
  | create parent name =>
      obtain ⟨rfl, hlookup⟩ := makeEntry_call hnext
      obtain ⟨id, hid, rfl⟩ := hwritten
      exact hcontent.append hname hid hlookup
  | mkdir parent name =>
      obtain ⟨rfl, hlookup⟩ := makeEntry_call hnext
      obtain ⟨id, hid, rfl⟩ := hwritten
      exact hcontent.append hname hid hlookup
  | symlink parent name link =>
      obtain ⟨rfl, hlookup⟩ := makeEntry_call hnext
      obtain ⟨id, hid, rfl⟩ := hwritten
      exact hcontent.append hname hid hlookup
  | lookup parent name => exact absurd (locks_of_call hnext) (by simp [Op.locks])
  | readdir dir => exact absurd (locks_of_call hnext) (by simp [Op.locks])

theorem DirsOk.step {event : Event n} (h : DirsOk s) (hlegal : Legal s event) (hplain : PlainNames event)
    (hfresh : Fresh s event) (hwritable : Writable s event) (hmoves : Moves s event s') : DirsOk s' := by
  refine ⟨h.inv.step hlegal.fits hfresh hwritable hmoves, fun d op hop => ?_, ?_⟩
  · rcases op_of_moves hmoves hop with hold | rfl
    · exact h.names d op hold
    · exact hplain d op rfl
  · cases hmoves with
    | start => exact h.dirs
    | acquire => exact h.dirs
    | hit hpc hbuf hgot => rcases got_cases hgot with ⟨result, -, rfl⟩ | ⟨req, result, -, rfl⟩ <;> exact h.dirs
    | miss => exact h.dirs
    | @serve c junk now req server call hrpc hrun =>
        rcases (hrpc ▸ h.inv.thread c).of_requested with ⟨op, hpc, rfl, hfits⟩ | ⟨op, result, hpc, hfits, hlocks, hnext⟩
        · cases hrun
          exact dirs_grow h.dirs (grows_insert s.server c op.ino) fun _ hf => hf.elim
        · obtain ⟨buf, hwritten, hhandled⟩ := handled_of_call h.inv.stored hfits hnext (hwritable _ hrpc) hrun
          refine dirs_grow h.dirs hhandled.grows ?_
          rintro d rfl hdir
          show DirOk (server.dataCache op.ino)
          rw [hhandled.data]
          exact dirOk_of_call hfits hdir (h.names c op (by rw [hpc]; rfl)) (h.dirs _ hdir) hnext hwritten
    | update => exact h.dirs
    | @ack c junk job server call hrpc hdelivered hrun =>
        obtain ⟨op, result, -, -, -, hjob, -⟩ := (hrpc ▸ h.inv.thread c).of_updating
        obtain ⟨-, hgrows, -⟩ := broadcast_spec h.inv.stored hjob.live hrun
        exact dirs_grow h.dirs hgrows fun _ hf => hf.elim
    | data hrpc hpc hgot => rcases got_cases hgot with ⟨result, -, rfl⟩ | ⟨req, result, -, rfl⟩ <;> exact h.dirs
    | answer => exact h.dirs
    | @finish c op result hpc => split <;> exact h.dirs

theorem unique_names
    (hr : Reachable (Guarded (fun s event => Legal s event ∧ PlainNames event ∧ Fresh s event ∧ Writable s event) Step)
      Start s) : UniqueNames s := by
  have h : DirsOk s := by
    refine hr.invariant DirsOk (fun s hstart => ?_) fun s event next h hstep => ?_
    · refine ⟨hstart.quiet.inv (InodeManager.reachable_owned hstart.store), fun c op hop => ?_, hstart.dirs⟩
      rw [hstart.quiet.pc] at hop
      cases hop
    · obtain ⟨⟨hlegal, hplain, hfresh, hwritable⟩, hstep⟩ := hstep
      exact h.step hlegal hplain hfresh hwritable (moves_of_step hstep)
  intro d entries hdir hread
  exact (h.dirs d hdir).readdir_nodup hread

end Invariant

section Mounted

-- Only the root is in use on a new disk.
theorem live_startFs {id : Nat} : InodeManager.startFs.Live id ↔ id = 1 := by
  constructor
  · intro hlive
    by_contra hne
    refine hlive.2 ?_
    rw [InodeManager.startFs, InodeManager.inode_setInode_of_ne hne, InodeManager.inode_format]
    decide +kernel
  · rintro rfl
    refine ⟨by decide, ?_⟩
    rw [InodeManager.startFs, InodeManager.inode_setInode_self]
    decide

-- Two clients have been started, one after the other. Each has put the empty root, and the
-- second put has been passed on to the first client.
def mounted : Sys 2 where
  server := {
    im := InodeManager.startFs
    clients := fun _ id => id == 1
    dataCache := fun _ => []
    attrCache := fun _ => {} }
  client := fun c => {
    dataCache := fun id => if c = 0 ∧ id = 1 then some [] else none
    attrCache := fun id => if c = 0 ∧ id = 1 then some {} else none }
  pc := fun _ => .idle
  rpc := fun _ => .none
  lock := fun _ => none
  log := []

theorem start_mounted : Start mounted where
  quiet := by
    refine ⟨fun _ => rfl, fun _ => rfl, fun _ => rfl, rfl, fun id hlive => ?_, fun _ _ _ => rfl,
      fun c id buf hbuf => ?_⟩
    · rw [live_startFs.mp hlive]
      show [] = InodeManager.startFs.content (InodeManager.startFs.inode 1)
      rw [InodeManager.startFs, InodeManager.inode_setInode_self]
      rfl
    · have hcached : (if c = 0 ∧ id = 1 then some [] else none) = some buf := hbuf
      split at hcached
      · next hid =>
          cases hcached
          exact ⟨by simp [mounted, hid.2], live_startFs.mpr hid.2, rfl⟩
      · cases hcached
  store := .start InodeManager.initial_startFs
  dirs _ _ := dirOk_nil

-- Client 0 creates x while client 1 waits for the lock of the root to make a directory y, of
-- which client 0 is then told.
def created : List (Event 2) :=
  let junk : Stack := .zero
  let now : Times := ⟨1, 1, 1⟩
  [.start 0 (.create 1 [120]), .acquire 0, .look 0, .start 1 (.mkdir 1 [121]), .serve 0 junk now,
    .update 0, .ack 0 junk, .update 0, .ack 0 junk, .reply 0, .finish 0,
    .acquire 1, .look 1, .serve 1 junk now, .start 0 (.lookup 1 [121]),
    .update 1, .ack 1 junk, .update 1, .ack 1 junk, .reply 1, .finish 1, .look 0, .finish 0]

theorem unique_names_created : ∃ s : Sys 2,
    Directory.readdir (s.server.dataCache 1) = some [⟨[120], 2⟩, ⟨[121], 3⟩] ∧
      (s.client 0).dataCache 1 = some (s.server.dataCache 1) ∧ UniqueNames s := by
  have hrun : (execute (fun s event => if Legal s event ∧ PlainNames event ∧ Fresh s event ∧ Writable s event then
      step s event else none) mounted created).map (fun s => (Directory.readdir (s.server.dataCache 1),
        decide ((s.client 0).dataCache 1 = some (s.server.dataCache 1)))) =
      some (some [⟨[120], 2⟩, ⟨[121], 3⟩], true) := by
    decide +kernel
  obtain ⟨s, hs, hfields⟩ := Option.map_eq_some_iff.mp hrun
  simp only [Prod.mk.injEq, decide_eq_true_eq] at hfields
  exact ⟨s, hfields.1, hfields.2, unique_names (.executed (.start start_mounted) hs)⟩

-- Client 1 looks up x without a lock, and the reply to its get is overtaken by the
-- update_handler call of client 0's create. It then finds no x in the copy it has stored, and
-- creates x again.
def overtaken : List (Event 2) :=
  let junk : Stack := .zero
  let now : Times := ⟨1, 1, 1⟩
  [.start 1 (.lookup 1 [120]), .look 1, .serve 1 junk now,
    .start 0 (.create 1 [120]), .acquire 0, .look 0, .serve 0 junk now,
    .update 0, .ack 0 junk, .update 0, .ack 0 junk, .reply 0, .finish 0,
    .reply 1, .finish 1,
    .start 1 (.create 1 [120]), .acquire 1, .look 1, .serve 1 junk now]

theorem overtaken_run :
    (execute (fun s event => if Legal s event ∧ event.onDir = true then step s event else none) mounted overtaken).map
      (fun s => ((s.server.im.inode 1).type, Directory.readdir (s.server.dataCache 1))) =
      some (1, some [⟨[120], 2⟩, ⟨[120], 3⟩]) := by
  decide +kernel

theorem duplicate_name :
    ∃ s : Sys 2, Reachable (Guarded (fun s event => Legal s event ∧ event.onDir = true) Step) Start s ∧
      ¬ UniqueNames s := by
  obtain ⟨s, hs, hfields⟩ := Option.map_eq_some_iff.mp overtaken_run
  simp only [Prod.mk.injEq] at hfields
  refine ⟨s, Reachable.executed (.start start_mounted) hs, fun hunique => ?_⟩
  have hdir : IsDir s.server.im 1 := ⟨⟨by decide, by rw [hfields.1]; decide⟩, by rw [hfields.1]; decide⟩
  exact absurd (hunique 1 _ hdir hfields.2) (by decide)

end Mounted

end CseLabs.Yfs
