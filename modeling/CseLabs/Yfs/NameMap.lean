import CseLabs.ExtentService.Transparent
import CseLabs.Yfs.Client

namespace CseLabs.Yfs

open InodeManager (Bytes INODE_NUM MAXFILE BLOCK_SIZE T_FILE T_DIR T_SYMLINK)
open Directory (Dirent COLON SLASH Plain encode entry)
open ExtentService (System Manager Env Coherent Record Stores firstFree types)

section Calls

-- The calls that put a name into a directory.
inductive Make
  | create (name : Bytes)
  | mkdir (name : Bytes)
  | symlink (name link : Bytes)
  deriving DecidableEq

def Make.name : Make → Bytes
  | .create name => name
  | .mkdir name => name
  | .symlink name _ => name

-- What goes into the new inode.
def Make.content : Make → Bytes
  | .symlink _ link => link
  | _ => []

def Make.type : Make → UInt32
  | .create _ => T_FILE
  | .mkdir _ => T_DIR
  | .symlink _ _ => T_SYMLINK

def Make.op (parent : Nat) : Make → Op
  | .create name => .create parent name
  | .mkdir name => .mkdir parent name
  | .symlink name link => .symlink parent name link

variable {σ : Type} {n : Nat} (m : Manager σ) (record : σ → Nat → Record) (c : Fin n) (parent : Nat)

-- There is a free inode, and the directory with the new entry is below the limit of a file.
def Make.Room (s : System σ n) (make : Make) : Prop :=
  ∃ id ∈ firstFree (types record s.server.im),
    (s.server.dataCache parent ++ entry make.name id).length < MAXFILE * BLOCK_SIZE ∧
      make.content.length < MAXFILE * BLOCK_SIZE

instance (s : System σ n) (make : Make) : Decidable (make.Room record parent s) :=
  inferInstanceAs (Decidable (∃ id ∈ firstFree (types record s.server.im), _))

-- There is room whenever a call makes an entry.
def Provided : System σ n → List (Env × Make) → Prop
  | _, [] => True
  | s, (env, make) :: rest =>
      (Directory.lookup (s.server.dataCache parent) make.name = some none → make.Room record parent s) ∧
        ∀ out ∈ perform m env s c (make.op parent), Provided out.2 rest

instance decidableProvided (s : System σ n) :
    (calls : List (Env × Make)) → Decidable (Provided m record c parent s calls)
  | [] => .isTrue trivial
  | (_, _) :: rest =>
      haveI := fun s => decidableProvided s rest
      inferInstanceAs (Decidable (_ ∧ _))

-- What the calls are for. The entries are those made so far.
inductive Runs : List Dirent → System σ n → List (Env × Make) → List Result → List Dirent → System σ n → Prop
  | done (entries : List Dirent) (s : System σ n) : Runs entries s [] [] entries s
  | exist {entries entries' : List Dirent} {s s₁ s' : System σ n} {env : Env} {make : Make}
      {calls : List (Env × Make)} {results : List Result} (hname : make.name ∈ entries.map Dirent.name)
      (hcall : perform m env s c (make.op parent) = some (.exist, s₁))
      (him : s₁.server.im = s.server.im) (hdata : s₁.server.dataCache = s.server.dataCache)
      (hattr : s₁.server.attrCache = s.server.attrCache)
      (rest : Runs entries s₁ calls results entries' s') :
      Runs entries s ((env, make) :: calls) (.exist :: results) entries' s'
  | made {entries entries' : List Dirent} {s s₁ s' : System σ n} {env : Env} {make : Make}
      {calls : List (Env × Make)} {results : List Result} {id : Nat} (hname : make.name ∉ entries.map Dirent.name)
      (hfresh : id ∉ entries.map Dirent.inum)
      (hcall : perform m env s c (make.op parent) = some (.created id, s₁))
      (rest : Runs (entries ++ [⟨make.name, id⟩]) s₁ calls results entries' s') :
      Runs entries s ((env, make) :: calls) (.created id :: results) entries' s'

end Calls

section Steps

variable {σ : Type} {n : Nat} {m : Manager σ} {record : σ → Nat → Record} {c : Fin n} {parent : Nat} {s : System σ n}

-- The directory and its entries' inodes between two calls.
structure Lists (record : σ → Nat → Record) (parent : Nat) (s : System σ n) (entries : List Dirent) : Prop where
  coherent : Coherent s
  content : s.server.dataCache parent = encode entries
  plain : Plain entries
  nodup : (entries.map Dirent.name).Nodup
  parent_used : types record s.server.im parent ≠ 0
  used : ∀ e ∈ entries, types record s.server.im e.inum ≠ 0

theorem perform_exist {env : Env} {make : Make} {id : Nat}
    (hlookup : Directory.lookup (s.clientGet c parent).1 make.name = some (some id)) :
    perform m env s c (make.op parent) = some (.exist, (s.clientGet c parent).2) := by
  cases make <;>
  · simp only [Make.op, Make.name] at hlookup ⊢
    simp only [perform, Op.ino, Op.next, makeEntry, hlookup]
    rfl

theorem Lists.exist {entries : List Dirent} (h : Lists record parent s entries) (env : Env) {make : Make}
    (hname : make.name ∈ entries.map Dirent.name) :
    perform m env s c (make.op parent) = some (.exist, (s.clientGet c parent).2) := by
  obtain ⟨e, he, hename⟩ := List.mem_map.mp hname
  have hfound : ∃ id, Directory.lookup (encode entries) make.name = some (some id) := by
    rw [Directory.lookup_encode h.plain]
    cases hfind : entries.find? fun e => e.name = make.name with
    | none => exact absurd hename (by simpa using List.find?_eq_none.mp hfind e he)
    | some d => exact ⟨d.inum, rfl⟩
  obtain ⟨id, hlookup⟩ := hfound
  rw [← h.content, ← (h.coherent.clientGet c parent).1] at hlookup
  exact perform_exist hlookup

-- The handler of the call that an operation makes when it finds no entry.
def Make.handle (m : Manager σ) (env : Env) (s : System σ n) (c : Fin n) (parent : Nat) :
    Make → Option (ExtentService.Reply × System σ n)
  | .create name => s.create m env c T_FILE parent name
  | .mkdir name => s.create m env c T_DIR parent name
  | .symlink name link => s.createSymLink m env c parent name link

theorem perform_make {env : Env} {make : Make} {id : Nat} {s' : System σ n}
    (hlookup : Directory.lookup (s.clientGet c parent).1 make.name = some none)
    (hcall : make.handle m env (s.clientGet c parent).2 c parent = some (.id id, s')) :
    perform m env s c (make.op parent) = some (.created id, s') := by
  cases make <;>
  · simp only [Make.op, Make.name, Make.handle] at hlookup hcall ⊢
    simp only [perform, Op.ino, Op.next, makeEntry, hlookup, Option.map_some, Option.isSome_none, Bool.false_eq_true,
      if_false, request, System.operate, System.handle, hcall]
    rfl

theorem handle_stores (hm : Stores m record) (env : Env) (make : Make) {id : Nat} (hparent : parent < INODE_NUM)
    (hused : types record s.server.im parent ≠ 0) (hfree : firstFree (types record s.server.im) = some id)
    (hroom : (s.server.dataCache parent ++ entry make.name id).length < MAXFILE * BLOCK_SIZE)
    (hcontent : make.content.length < MAXFILE * BLOCK_SIZE) :
    ∃ s', make.handle m env s c parent = some (.id id, s') ∧
      types record s'.server.im = Function.update (types record s.server.im) id make.type.toUInt16 ∧
        s'.server.dataCache parent = s.server.dataCache parent ++ entry make.name id := by
  cases make with
  | create name => exact ExtentService.create_stores env s hm c T_FILE hparent hused hfree hroom
  | mkdir name => exact ExtentService.create_stores env s hm c T_DIR hparent hused hfree hroom
  | symlink name link => exact ExtentService.createSymLink_stores env s hm c hparent hused hfree hcontent hroom

theorem Make.type_ne_zero (make : Make) : make.type.toUInt16 ≠ 0 := by
  cases make with
  | create name => exact (by decide : T_FILE.toUInt16 ≠ 0)
  | mkdir name => exact (by decide : T_DIR.toUInt16 ≠ 0)
  | symlink name link => exact (by decide : T_SYMLINK.toUInt16 ≠ 0)

theorem Lists.lookup_none {entries : List Dirent} (h : Lists record parent s entries) {name : Bytes}
    (hname : name ∉ entries.map Dirent.name) : Directory.lookup (s.server.dataCache parent) name = some none := by
  rw [h.content, Directory.lookup_encode h.plain]
  have hfind : (entries.find? fun e => e.name = name) = none := by
    rw [List.find?_eq_none]
    intro e he
    simp only [decide_eq_true_eq]
    rintro rfl
    exact hname (List.mem_map_of_mem he)
  rw [hfind]
  rfl

theorem firstFree_lt {type : Nat → UInt16} {id : Nat} (h : firstFree type = some id) : id < INODE_NUM ∧ type id = 0 := by
  obtain ⟨htype, hmem, -⟩ := List.find?_range'_eq_some.mp h
  have hnum : INODE_NUM = 1024 := rfl
  have hrange := List.mem_range'_1.mp hmem
  exact ⟨by omega, by simpa using htype⟩

-- A name that is not there gets an inode no entry has.
theorem Lists.made (hm : Stores m record) {entries : List Dirent} (h : Lists record parent s entries) (env : Env)
    {make : Make} (hparent : parent < INODE_NUM) (hcolon : COLON ∉ make.name)
    (hname : make.name ∉ entries.map Dirent.name) (hroom : make.Room record parent s) :
    ∃ id s', perform m env s c (make.op parent) = some (.created id, s') ∧ id ∉ entries.map Dirent.inum ∧
      Lists record parent s' (entries ++ [⟨make.name, id⟩]) := by
  obtain ⟨id, hfree, hlimit, hcontent⟩ := hroom
  obtain ⟨him, hdata, -⟩ := clientGet_server s c parent
  obtain ⟨hid, hzero⟩ := firstFree_lt hfree
  have hfresh : id ∉ entries.map Dirent.inum := by
    intro hmem
    obtain ⟨e, he, rfl⟩ := List.mem_map.mp hmem
    exact h.used e he hzero
  have hcall : ∃ s', make.handle m env (s.clientGet c parent).2 c parent = some (.id id, s') ∧ _ :=
    handle_stores hm env make hparent (by rw [him]; exact h.parent_used) (by rw [him]; exact hfree)
      (by rw [hdata]; exact hlimit) hcontent
  rw [him, hdata] at hcall
  obtain ⟨s', hcall, htypes, hdir⟩ := hcall
  have hlookup : Directory.lookup (s.clientGet c parent).1 make.name = some none := by
    rw [(h.coherent.clientGet c parent).1]
    exact h.lookup_none hname
  have hperform := perform_make hlookup hcall
  have hkept : ∀ i, types record s.server.im i ≠ 0 → types record s'.server.im i ≠ 0 := by
    intro i hi
    rw [htypes]
    by_cases he : i = id
    · rw [he, Function.update_self]
      exact make.type_ne_zero
    · rwa [Function.update_of_ne he]
  refine ⟨id, s', hperform, hfresh, coherent_perform h.coherent hperform, ?_, ?_, ?_, hkept _ h.parent_used, ?_⟩
  · rw [hdir, h.content, Directory.encode_append]
    simp [encode]
  · intro e he
    rcases List.mem_append.mp he with he | he
    · exact h.plain e he
    · rw [List.mem_singleton.mp he]
      exact ⟨hcolon, hid.trans (by decide)⟩
  · rw [List.map_append, List.map_singleton, List.nodup_append]
    refine ⟨h.nodup, List.nodup_singleton _, fun a ha b hb => ?_⟩
    rw [List.mem_singleton.mp hb]
    rintro rfl
    exact hname ha
  · intro e he
    rcases List.mem_append.mp he with he | he
    · exact hkept _ (h.used e he)
    · rw [List.mem_singleton.mp he, htypes, Function.update_self]
      exact make.type_ne_zero

end Steps

section NameMap

variable {σ : Type} {n : Nat} {m : Manager σ} {record : σ → Nat → Record} {c : Fin n} {parent : Nat} {s : System σ n}

theorem Lists.clientGet {entries : List Dirent} (h : Lists record parent s entries) (c : Fin n) (id : Nat) :
    Lists record parent (s.clientGet c id).2 entries where
  coherent := (h.coherent.clientGet c id).2
  content := by rw [(clientGet_server s c id).2.1, h.content]
  plain := h.plain
  nodup := h.nodup
  parent_used := by rw [(clientGet_server s c id).1]; exact h.parent_used
  used := by rw [(clientGet_server s c id).1]; exact h.used

-- The run of the calls.
theorem Lists.runs (hm : Stores m record) {entries : List Dirent} (h : Lists record parent s entries)
    (hparent : parent < INODE_NUM) (calls : List (Env × Make))
    (hnames : ∀ call ∈ calls, COLON ∉ call.2.name ∧ SLASH ∉ call.2.name)
    (hroom : Provided m record c parent s calls) :
    ∃ results entries' s', Runs m c parent entries s calls results entries' s' ∧ Lists record parent s' entries' := by
  induction calls generalizing s entries with
  | nil => exact ⟨[], entries, s, .done entries s, h⟩
  | cons call calls ih =>
      obtain ⟨env, make⟩ := call
      obtain ⟨hcolon, -⟩ := hnames _ List.mem_cons_self
      have hlater := fun call hcall => hnames call (List.mem_cons_of_mem _ hcall)
      by_cases hname : make.name ∈ entries.map Dirent.name
      · have hperform : perform m env s c (make.op parent) = _ := h.exist env hname
        obtain ⟨results, entries', s', hruns, hlists⟩ := ih (h.clientGet c parent) hlater (hroom.2 _ hperform)
        obtain ⟨him, hdata, hattr⟩ := clientGet_server s c parent
        exact ⟨_, entries', s', .exist hname hperform him hdata hattr hruns, hlists⟩
      · obtain ⟨id, s₁, hperform, hfresh, hmade⟩ :=
          h.made hm env hparent hcolon hname (hroom.1 (h.lookup_none hname))
        obtain ⟨results, entries', s', hruns, hlists⟩ := ih hmade hlater (hroom.2 _ hperform)
        exact ⟨_, entries', s', .made hname hfresh hperform hruns, hlists⟩

theorem Runs.performAll {entries entries' : List Dirent} {s' : System σ n} {calls : List (Env × Make)}
    {results : List Result} (h : Runs m c parent entries s calls results entries' s') :
    performAll m s c (calls.map fun call => (call.1, call.2.op parent)) = some (results, s') := by
  induction h with
  | done entries s => rfl
  | exist hname hcall him hdata hattr rest ih =>
      rw [List.map_cons, Yfs.performAll, hcall]
      simp only [ih, Option.map_some]
  | made hname hfresh hcall rest ih =>
      rw [List.map_cons, Yfs.performAll, hcall]
      simp only [ih, Option.map_some]

-- What the client sees of the directory.
theorem Lists.readdir {entries : List Dirent} (h : Lists record parent s entries) (env : Env) (c : Fin n) :
    (perform m env s c (.readdir parent)).map Prod.fst = some (.list entries) := by
  have hbuf := (h.coherent.clientGet c parent).1
  rw [h.content] at hbuf
  rw [perform]
  simp only [Op.ino, Op.next, hbuf, Directory.readdir_encode h.plain]
  rfl

theorem Lists.lookup {entries : List Dirent} (h : Lists record parent s entries) (env : Env) (c : Fin n)
    (name : Bytes) : ∃ found, (perform m env s c (.lookup parent name)).map Prod.fst = some (.found found) ∧
      ∀ id, found = some id ↔ ⟨name, id⟩ ∈ entries := by
  refine ⟨(entries.find? fun e => e.name = name).map Dirent.inum, ?_, fun id => ?_⟩
  · rw [perform_lookup h.coherent, h.content, Directory.lookup_encode h.plain]
    rfl
  · constructor
    · intro hfound
      obtain ⟨e, hfind, rfl⟩ := Option.map_eq_some_iff.mp hfound
      have hename : e.name = name := by simpa using List.find?_some hfind
      rw [← hename]
      exact List.mem_of_find?_eq_some hfind
    · intro hmem
      cases hfind : entries.find? fun e => e.name = name with
      | none => exact absurd (decide_eq_true rfl) (List.find?_eq_none.mp hfind ⟨name, id⟩ hmem)
      | some e =>
          have hename : e.name = name := by simpa using List.find?_some hfind
          rw [List.inj_on_of_nodup_map h.nodup (List.mem_of_find?_eq_some hfind) hmem hename]
          rfl

-- create, mkdir and symlink of one client make a map from names to inodes.
theorem calls_are_name_map (hm : Stores m record) (hs : Coherent s) (hparent : parent < INODE_NUM)
    (hdir : (record s.server.im parent).type ≠ 0) (hempty : s.server.dataCache parent = [])
    (calls : List (Env × Make)) (hnames : ∀ call ∈ calls, COLON ∉ call.2.name ∧ SLASH ∉ call.2.name)
    (hroom : Provided m record c parent s calls) :
    ∃ results entries s', performAll m s c (calls.map fun call => (call.1, call.2.op parent)) = some (results, s') ∧
      Runs m c parent [] s calls results entries s' ∧ (entries.map Dirent.name).Nodup ∧
      ∀ env, (perform m env s' c (.readdir parent)).map Prod.fst = some (.list entries) ∧
        ∀ name, ∃ found, (perform m env s' c (.lookup parent name)).map Prod.fst = some (.found found) ∧
          ∀ id, found = some id ↔ ⟨name, id⟩ ∈ entries := by
  have hstart : Lists record parent s [] := by
    refine ⟨hs, hempty, ?_, List.nodup_nil, hdir, ?_⟩
    · exact fun e he => absurd he List.not_mem_nil
    · exact fun e he => absurd he List.not_mem_nil
  obtain ⟨results, entries, s', hruns, hlists⟩ := hstart.runs hm hparent calls hnames hroom
  exact ⟨results, entries, s', hruns.performAll, hruns, hlists.nodup,
    fun env => ⟨hlists.readdir env c, hlists.lookup env c⟩⟩

-- A file, a directory, the file again, and a link.
theorem calls_are_name_map_root : ∃ results entries s',
    performAll ExtentService.recordManager ExtentService.recordSystem 0
        ([(ExtentService.someEnv, .create [97]), (ExtentService.someEnv, .mkdir [98]),
          (ExtentService.someEnv, .create [97]), (ExtentService.someEnv, .symlink [99] [97])].map
            fun call => (call.1, Make.op 1 call.2)) = some (results, s') ∧
      Runs ExtentService.recordManager 0 1 [] ExtentService.recordSystem
        [(ExtentService.someEnv, .create [97]), (ExtentService.someEnv, .mkdir [98]),
          (ExtentService.someEnv, .create [97]), (ExtentService.someEnv, .symlink [99] [97])] results entries s' ∧
      (entries.map Dirent.name).Nodup ∧
      ∀ env, (perform ExtentService.recordManager env s' 0 (.readdir 1)).map Prod.fst = some (.list entries) ∧
        ∀ name, ∃ found,
          (perform ExtentService.recordManager env s' 0 (.lookup 1 name)).map Prod.fst = some (.found found) ∧
          ∀ id, found = some id ↔ ⟨name, id⟩ ∈ entries :=
  calls_are_name_map ExtentService.recordManager_stores
    (ExtentService.coherent_of_empty ⟨fun _ _ => ⟨rfl, rfl, rfl⟩, fun _ => ⟨rfl, rfl⟩⟩) (by decide) (by decide) rfl _
    (by decide) (by decide +kernel)

end NameMap

end CseLabs.Yfs
