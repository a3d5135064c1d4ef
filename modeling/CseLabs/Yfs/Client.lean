import CseLabs.ExtentService.Coherence
import CseLabs.ExtentService.Removal
import CseLabs.Yfs

namespace CseLabs.Yfs

open InodeManager (Bytes Stack Times Fs T_FILE INODE_NUM)
open Directory (COLON SLASH)
open ExtentService (System Manager Env Coherent diskManager)

section Operations

variable {σ : Type} {n : Nat} (m : Manager σ) (env : Env)

-- The calls of extent_client, and what they leave in their result parameter.
def request : Extent.Request → ExtentService.Request
  | .get id => .get id
  | .put id buf => .put id buf
  | .create type parent name => .create type parent name
  | .createSymLink parent name link => .createSymLink parent name link

def reply : ExtentService.Reply → Extent.Reply
  | .data buf => .data buf
  | .id id => .id id
  | _ => .ok

-- An operation of yfs_client from its first call to its last.
def perform (s : System σ n) (c : Fin n) (op : Op) : Option (Result × System σ n) :=
  match op.next (s.clientGet c op.ino).1 with
  | none => none
  | some (.done result) => some (result, (s.clientGet c op.ino).2)
  | some (.call req result) =>
      ((s.clientGet c op.ino).2.operate m env c (request req)).map fun out => (result (reply out.1), out.2)

-- The operations of one client, one after another.
def performAll (s : System σ n) (c : Fin n) : List (Env × Op) → Option (List Result × System σ n)
  | [] => some ([], s)
  | (env, op) :: rest =>
      match perform m env s c op with
      | none => none
      | some (result, s) => (performAll s c rest).map fun out => (result :: out.1, out.2)

-- yfs_client() puts an empty root.
def construct (s : System σ n) (c : Fin n) : Option (System σ n) := s.put m env c 1 []

inductive Status
  | OK
  | RPCERR
  | NOENT
  | IOERR
  | EXIST
  deriving DecidableEq

-- inum is what the variable holds that only a successful lookup assigns. extent_client::remove
-- does not look at what the call returns. The second component is none when the server has ended.
def unlink (s : System σ n) (c : Fin n) (parent : Nat) (name : Bytes) (inum : Nat) :
    Option (Status × Option (System σ n)) :=
  match Directory.lookup (s.clientGet c parent).1 name with
  | none => none
  | some found =>
      some (.OK, ((s.clientGet c parent).2.operate m env c (.remove parent name (found.getD inum))).map Prod.snd)

end Operations

section Steps

variable {σ : Type} {n : Nat} {m : Manager σ} {env : Env} {s s' : System σ n} {c : Fin n} {op : Op}

theorem clientGet_server (s : System σ n) (c : Fin n) (id : Nat) :
    (s.clientGet c id).2.server.im = s.server.im ∧ (s.clientGet c id).2.server.dataCache = s.server.dataCache ∧
      (s.clientGet c id).2.server.attrCache = s.server.attrCache := by
  rw [System.clientGet]
  split
  · exact ⟨rfl, rfl, rfl⟩
  · exact ⟨rfl, rfl, rfl⟩

-- What an operation can do.
theorem perform_cases {result : Result} (h : perform m env s c op = some (result, s')) :
    (op.next (s.clientGet c op.ino).1 = some (.done result) ∧ s' = (s.clientGet c op.ino).2) ∨
      ∃ req after rep, op.next (s.clientGet c op.ino).1 = some (.call req after) ∧ result = after (reply rep) ∧
        (s.clientGet c op.ino).2.operate m env c (request req) = some (rep, s') := by
  rw [perform] at h
  split at h
  · cases h
  · next result' hnext =>
      cases h
      exact .inl ⟨hnext, rfl⟩
  · next req after hnext =>
      obtain ⟨⟨rep, s₁⟩, hop, heq⟩ := Option.map_eq_some_iff.mp h
      cases heq
      exact .inr ⟨req, after, rep, hnext, rfl, hop⟩

theorem coherent_perform {result : Result} (hs : Coherent s) (h : perform m env s c op = some (result, s')) :
    Coherent s' := by
  have hget := (hs.clientGet c op.ino).2
  rcases perform_cases h with ⟨-, rfl⟩ | ⟨req, after, rep, -, -, hop⟩
  · exact hget
  · have hrun : ExtentService.operation m (s.clientGet c op.ino).2 ⟨env, c, request req⟩ = some s' := by
      rw [ExtentService.operation, hop]
      rfl
    exact hget.operation hrun

theorem perform_lookup (hs : Coherent s) (parent : Nat) (name : Bytes) :
    (perform m env s c (.lookup parent name)).map Prod.fst =
      (Directory.lookup (s.server.dataCache parent) name).map Result.found := by
  have hbuf := (hs.clientGet c parent).1
  rw [perform]
  simp only [Op.ino, Op.next, hbuf]
  cases Directory.lookup (s.server.dataCache parent) name with
  | none => rfl
  | some found => rfl

end Steps

section Startup

-- The file system with the clients that have been constructed.
structure Mounts (σ : Type) (n : Nat) where
  sys : System σ n
  up : Fin n → Bool

inductive ClientEvent (n : Nat)
  | construct (env : Env) (c : Fin n)
  | perform (env : Env) (c : Fin n) (op : Op)

variable {σ : Type} {n : Nat}

def Mounts.step (m : Manager σ) (s : Mounts σ n) : ClientEvent n → Option (Mounts σ n)
  | .construct env c =>
      if s.up c then none
      else (construct m env s.sys c).map fun sys => ⟨sys, Function.update s.up c true⟩
  | .perform env c op =>
      if s.up c then (perform m env s.sys c op).map fun out => { s with sys := out.2 } else none

-- The server has started on a new disk.
def Mounts.Initial (s : Mounts Fs n) : Prop :=
  ExtentService.Empty s.sys ∧ InodeManager.Initial s.sys.server.im ∧ ∀ c, s.up c = false

-- lookup(1, name) of client d.
def Mounts.Finds (m : Manager σ) (s : Mounts σ n) (d : Fin n) (name : Bytes) (inum : Nat) : Prop :=
  ∀ env, (perform m env s.sys d (.lookup 1 name)).map Prod.fst = some (.found (some inum))

theorem finds_iff {m : Manager σ} {s : Mounts σ n} (hs : Coherent s.sys) (d : Fin n) (name : Bytes) (inum : Nat) :
    s.Finds m d name inum ↔ Directory.lookup (s.sys.server.dataCache 1) name = some (some inum) := by
  rw [Mounts.Finds]
  simp only [perform_lookup hs]
  constructor
  · intro h
    obtain ⟨found, hfound, heq⟩ := Option.map_eq_some_iff.mp (h ⟨.zero, ⟨0, 0, 0⟩⟩)
    rw [hfound, Result.found.inj heq]
  · intro h env
    rw [h]
    rfl

theorem step_construct {m : Manager σ} {s s' : Mounts σ n} {env : Env} {c : Fin n}
    (h : s.step m (.construct env c) = some s') :
    construct m env s.sys c = some s'.sys ∧ s'.up = Function.update s.up c true := by
  rw [Mounts.step] at h
  split at h
  · cases h
  · obtain ⟨sys, hconstruct, rfl⟩ := Option.map_eq_some_iff.mp h
    exact ⟨hconstruct, rfl⟩

theorem coherent_mounts {s : Mounts Fs n}
    (hr : Reachable (fun s event s' => Mounts.step diskManager s event = some s') Mounts.Initial s) : Coherent s.sys := by
  refine hr.invariant (fun s => Coherent s.sys) (fun _ h => ExtentService.coherent_of_empty h.1) ?_
  intro s event s' hs hstep
  cases event with
  | construct env c => exact hs.put (step_construct hstep).1
  | perform env c op =>
      rw [Mounts.step] at hstep
      split at hstep
      · obtain ⟨⟨result, sys⟩, hperform, rfl⟩ := Option.map_eq_some_iff.mp hstep
        exact coherent_perform hs hperform
      · cases hstep

-- Whatever the disk looks like, a file of size 0 reads as nothing.
theorem readFile_empty {im : Fs} {junk : Stack} {inum : Nat} (hinum : inum < INODE_NUM)
    (hsize : (im.inode inum).size = 0) : InodeManager.readFile junk inum im = .ok (some []) im := by
  rw [InodeManager.readFile, InodeManager.bind_ok (InodeManager.getInode_run hinum)]
  dsimp only
  rw [hsize]
  rfl

theorem size_writeFile_nil {im im' : Fs} {junk : Stack} {now : Times} {inum : Nat} (hinum : inum < INODE_NUM)
    (h : InodeManager.writeFile junk now inum [] im = .ok () im') : (im'.inode inum).size = 0 := by
  rw [InodeManager.writeFile, if_neg (by decide), InodeManager.bind_ok (InodeManager.getInode_run hinum)] at h
  dsimp only at h
  cases hresize : InodeManager.resize junk (im.inode inum)
      (InodeManager.blocksNum (im.inode inum).size.toNat) (InodeManager.blocksNum ([] : Bytes).length) im with
  | error e im₁ =>
      rw [InodeManager.bind_error hresize] at h
      cases h
  | ok ino im₁ =>
      have hdata : InodeManager.writeData junk ino [] im₁ = .ok () im₁ := rfl
      rw [InodeManager.bind_ok hresize, InodeManager.bind_ok hdata, InodeManager.putInode_run hinum] at h
      cases h
      rw [InodeManager.inode_setInode_self]
      rfl

-- The put of the constructor leaves an empty root.
theorem construct_root {s s' : System Fs n} {env : Env} {c : Fin n} (h : construct diskManager env s c = some s') :
    s'.server.dataCache 1 = [] := by
  simp only [construct, System.put, System.writeFile, System.updateCache, Option.bind_eq_bind,
    Option.bind_eq_some_iff] at h
  obtain ⟨s₁, ⟨im, hwrite, hs₁⟩, s₂, ⟨buf, hread, attr, -, hs₂⟩, hs'⟩ := h
  cases hs₁
  cases hs₂
  cases hs'
  have hempty : (im.inode 1).size = 0 := by
    have hdisk : (ExtentService.result (InodeManager.writeFile env.junk env.now 1 [] s.server.im)).map Prod.snd =
        some im := hwrite
    obtain ⟨⟨u, im'⟩, hrun, rfl⟩ := Option.map_eq_some_iff.mp hdisk
    exact size_writeFile_nil (by decide) (ExtentService.result_eq_some hrun)
  have hbuf : buf = some [] := by
    have hdisk : (ExtentService.result (InodeManager.readFile env.junk 1 im)).map Prod.fst = some buf := hread
    rw [readFile_empty (by decide) hempty] at hdisk
    exact (Option.some.inj hdisk).symm
  rw [ExtentService.broadcast_eq, hbuf]
  rfl

theorem lookup_nil (name : Bytes) : Directory.lookup [] name = some none := rfl

-- A construction keeps the names that are in the root exactly when there are none.
theorem construct_keeps_names_iff {s s' : Mounts Fs n} {env : Env} {c : Fin n}
    (hr : Reachable (fun s event s' => Mounts.step diskManager s event = some s') Mounts.Initial s)
    (hstep : s.step diskManager (.construct env c) = some s') :
    (∀ d name inum, s.up d = true → s.Finds diskManager d name inum →
        ∀ e, s'.up e = true → s'.Finds diskManager e name inum) ↔
      ∀ d name inum, s.up d = true → ¬s.Finds diskManager d name inum := by
  have hs' : Coherent s'.sys := coherent_mounts (hr.extend hstep)
  obtain ⟨hconstruct, hup'⟩ := step_construct hstep
  constructor
  · intro hkeeps d name inum hup hfinds
    -- the new client itself finds nothing
    have hfound := hkeeps d name inum hup hfinds c (by rw [hup', Function.update_self])
    rw [finds_iff hs', construct_root hconstruct, lookup_nil] at hfound
    cases hfound
  · intro hnone d name inum hup hfinds
    exact absurd hfinds (hnone d name inum hup)

-- A server on a new disk and n clients to come.
def unmounted (n : Nat) : Mounts Fs n := ⟨ExtentService.emptySystem n, fun _ => false⟩

theorem initial_unmounted (n : Nat) : (unmounted n).Initial :=
  ⟨ExtentService.empty_emptySystem n, InodeManager.initial_startFs, fun _ => rfl⟩

-- Client 1 is constructed while client 0 is up: on an empty root, and on one with a file and a
-- directory.
theorem construct_keeps_names_second :
    (∃ s s' : Mounts Fs 2, s.up 0 = true ∧ s.step diskManager (.construct ExtentService.someEnv 1) = some s' ∧
      ∀ d name inum, s.up d = true → s.Finds diskManager d name inum →
        ∀ e, s'.up e = true → s'.Finds diskManager e name inum) ∧
    ∃ s s' : Mounts Fs 2, s.sys.server.dataCache 1 = [97, 58, 50, 47, 98, 58, 51, 47] ∧
      s.step diskManager (.construct ExtentService.someEnv 1) = some s' ∧
      ¬∀ d name inum, s.up d = true → s.Finds diskManager d name inum →
        ∀ e, s'.up e = true → s'.Finds diskManager e name inum := by
  have hrun : ∀ events : List (ClientEvent 2), ∀ root, (execute (Mounts.step diskManager) (unmounted 2) events).map
      (fun s => (s.up 0, s.sys.server.dataCache 1, (s.step diskManager (.construct ExtentService.someEnv 1)).isSome)) =
        some (true, root, true) →
      ∃ s s' : Mounts Fs 2,
        Reachable (fun s event s' => Mounts.step diskManager s event = some s') Mounts.Initial s ∧
        s.step diskManager (.construct ExtentService.someEnv 1) = some s' ∧ s.up 0 = true ∧
        s.sys.server.dataCache 1 = root := by
    intro events root h
    obtain ⟨s, hs, hfields⟩ := Option.map_eq_some_iff.mp h
    simp only [Prod.mk.injEq] at hfields
    obtain ⟨hup, hroot, hnext⟩ := hfields
    obtain ⟨s', hs'⟩ := Option.isSome_iff_exists.mp hnext
    exact ⟨s, s', (Reachable.start (initial_unmounted 2)).computed hs, hs', hup, hroot⟩
  constructor
  · obtain ⟨s, s', hr, hstep, hup, hroot⟩ := hrun [.construct ExtentService.someEnv 0] [] (by decide +kernel)
    refine ⟨s, s', hup, hstep, (construct_keeps_names_iff hr hstep).mpr fun d name inum _ => ?_⟩
    rw [finds_iff (coherent_mounts hr), hroot, lookup_nil]
    exact fun h => Option.some_ne_none _ (Option.some.inj h).symm
  · obtain ⟨s, s', hr, hstep, hup, hroot⟩ := hrun [.construct ExtentService.someEnv 0,
      .perform ExtentService.someEnv 0 (.create 1 [97]), .perform ExtentService.someEnv 0 (.mkdir 1 [98])]
      [97, 58, 50, 47, 98, 58, 51, 47] (by decide +kernel)
    refine ⟨s, s', hroot, hstep, fun hkeeps => ?_⟩
    refine (construct_keeps_names_iff hr hstep).mp hkeeps 0 [98] 3 hup ?_
    rw [finds_iff (coherent_mounts hr), hroot]
    decide +kernel

-- Client 0 creates a, client 1 is constructed, and a is gone.
theorem construct_loses_name : ∃ s s' : Mounts Fs 2,
    Reachable (fun s event s' => Mounts.step diskManager s event = some s') Mounts.Initial s ∧
      s.step diskManager (.construct ExtentService.someEnv 1) = some s' ∧
        s.up 0 = true ∧ s.Finds diskManager 0 [97] 2 ∧ ∀ d inum, ¬s'.Finds diskManager d [97] inum := by
  have hrun : (execute (Mounts.step diskManager) (unmounted 2)
      [.construct ExtentService.someEnv 0, .perform ExtentService.someEnv 0 (.create 1 [97])]).map
        (fun s => (s.up 0, s.sys.server.dataCache 1,
          (s.step diskManager (.construct ExtentService.someEnv 1)).isSome)) =
      some (true, [97, 58, 50, 47], true) := by
    decide +kernel
  obtain ⟨s, hs, hfields⟩ := Option.map_eq_some_iff.mp hrun
  simp only [Prod.mk.injEq] at hfields
  obtain ⟨hup, hroot, hnext⟩ := hfields
  have hr : Reachable (fun s event s' => Mounts.step diskManager s event = some s') Mounts.Initial s :=
    (Reachable.start (initial_unmounted 2)).computed hs
  obtain ⟨s', hs'⟩ := Option.isSome_iff_exists.mp hnext
  refine ⟨s, s', hr, hs', hup, ?_, fun d inum => ?_⟩
  · rw [finds_iff (coherent_mounts hr), hroot]
    decide +kernel
  · rw [finds_iff (coherent_mounts (hr.extend hs')), construct_root (step_construct hs').1, lookup_nil]
    exact fun h => Option.some_ne_none _ (Option.some.inj h).symm

end Startup

section Unlink

variable {n : Nat} {env : Env} {c : Fin n} {parent inum : Nat} {name : Bytes}

-- What a failed unlink is to leave alone.
structure Untouched (parent : Nat) (s s' : System Fs n) : Prop where
  types : ∀ id, (s'.server.im.inode id).type = (s.server.im.inode id).type
  contents : ∀ env id, diskManager.readFile env id s'.server.im = diskManager.readFile env id s.server.im
  bitmap : s'.server.im.usingBlocks = s.server.im.usingBlocks
  directory : s'.server.dataCache parent = s.server.dataCache parent

-- A missing name goes to the server all the same, with whatever number the variable holds.
theorem unlink_missing {σ : Type} {m : Manager σ} {s : System σ n}
    (hmissing : Directory.lookup (s.clientGet c parent).1 name = some none) :
    unlink m env s c parent name inum = some (.OK, (s.clientGet c parent).2.remove m env c parent name inum) := by
  rw [unlink, hmissing]
  simp only [System.operate, System.handle, Option.getD_none]
  cases (s.clientGet c parent).2.remove m env c parent name inum with
  | none => rfl
  | some s' => rfl

-- There is no case in which unlink reports a missing name and leaves everything alone.
theorem failed_unlink_not_refused (s : System Fs n)
    (hmissing : Directory.lookup (s.clientGet c parent).1 name = some none) :
    ¬∃ s', unlink diskManager env s c parent name inum = some (.NOENT, some s') ∧ Untouched parent s s' := by
  rintro ⟨s', hunlink, -⟩
  rw [unlink_missing hmissing] at hunlink
  cases hunlink

-- The root holds two files, and the name is that of neither.
theorem failed_unlink_not_refused_files : ∃ s : System Fs 2,
    s.server.dataCache 1 = [97, 58, 50, 47, 98, 58, 51, 47] ∧
      ¬∃ s', unlink diskManager ExtentService.someEnv s 0 1 [99] 3 = some (.NOENT, some s') ∧ Untouched 1 s s' := by
  have hrun : (execute (Mounts.step diskManager) (unmounted 2) [.construct ExtentService.someEnv 0,
      .perform ExtentService.someEnv 0 (.create 1 [97]), .perform ExtentService.someEnv 0 (.create 1 [98])]).map
        (fun s => (s.sys.server.dataCache 1, Directory.lookup (s.sys.clientGet 0 1).1 [99])) =
      some ([97, 58, 50, 47, 98, 58, 51, 47], some none) := by
    decide +kernel
  obtain ⟨s, -, hfields⟩ := Option.map_eq_some_iff.mp hrun
  obtain ⟨hroot, hmissing⟩ := Prod.mk.inj hfields
  exact ⟨s.sys, hroot, failed_unlink_not_refused s.sys hmissing⟩

-- The root holds a file ab with number 2. unlink of b, with a 2 in the variable, returns OK; the
-- file has lost its inode, and the root its entry but for the a.
theorem unlink_frees_other_file : ∃ s s' : System Fs 1,
    Directory.lookup (s.clientGet 0 1).1 [98] = some none ∧
      unlink diskManager ExtentService.someEnv s 0 1 [98] 2 = some (.OK, some s') ∧
        (s.server.im.inode 2).type = T_FILE.toUInt16 ∧ (s'.server.im.inode 2).type = 0 ∧
          s.server.dataCache 1 = [97, 98, 58, 50, 47] ∧ s'.server.dataCache 1 = [97] := by
  have hrun : (execute (Mounts.step diskManager) (unmounted 1)
      [.construct ExtentService.someEnv 0, .perform ExtentService.someEnv 0 (.create 1 [97, 98])]).map
        (fun s => ((s.sys.clientGet 0 1).1, (s.sys.server.im.inode 2).type, s.sys.server.dataCache 1,
          ((s.sys.clientGet 0 1).2.remove diskManager ExtentService.someEnv 0 1 [98] 2).map
            fun s' => ((s'.server.im.inode 2).type, s'.server.dataCache 1))) =
      some ([97, 98, 58, 50, 47], T_FILE.toUInt16, [97, 98, 58, 50, 47], some (0, [97])) := by
    decide +kernel
  obtain ⟨s, -, hfields⟩ := Option.map_eq_some_iff.mp hrun
  simp only [Prod.mk.injEq] at hfields
  obtain ⟨hbuf, htype, hroot, hremove⟩ := hfields
  obtain ⟨s', hs', hafter⟩ := Option.map_eq_some_iff.mp hremove
  rw [Prod.mk.injEq] at hafter
  have hmissing : Directory.lookup (s.sys.clientGet 0 1).1 [98] = some none := by
    rw [hbuf]
    decide +kernel
  exact ⟨s.sys, s', hmissing, by rw [unlink_missing hmissing, hs'], htype, hafter.1, hroot, hafter.2⟩

end Unlink

end CseLabs.Yfs
