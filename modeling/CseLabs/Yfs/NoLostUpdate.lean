import CseLabs.Serial
import CseLabs.Yfs.Coherence

namespace CseLabs.Yfs

open InodeManager (Bytes Stack Times Fs T_FILE)
open Extent
open Serial (Replays replays_snoc)

variable {n : Nat} {s s' : Sys n} {c : Fin n} {f : Nat}

section SingleCopy

-- The operations on a file that have ended, in the order in which they held its lock.
def Sys.history (s : Sys n) (f : Nat) : List (FileOp × Result) :=
  s.log.filterMap fun
    | (_, .file ino op, result) => if ino = f then some (op, result) else none
    | _ => none

def IsFile (im : Fs) (f : Nat) : Prop := im.Live f ∧ (im.inode f).type = T_FILE.toUInt16

-- The results of the operations on f, and its content whenever no operation is in the middle,
-- are those of a single copy.
def SingleCopy (init : Bytes) (s : Sys n) (f : Nat) : Prop :=
  ∃ content, Replays FileOp.apply init (s.history f) content ∧
    (s.lock f = none → s.server.dataCache f = content)

-- read, write and setattr on files
def FileOps (s : Sys n) : Event n → Prop
  | .start _ op => op.Fits s.server.im ∧ ∃ ino fop, op = .file ino fop
  | _ => True

def Op.onFile : Op → Bool
  | .file _ _ => true
  | _ => false

theorem onFile_iff (op : Op) : op.onFile = true ↔ ∃ ino fop, op = .file ino fop := by
  cases op <;> simp [Op.onFile]

instance (s : Sys n) (event : Event n) : Decidable (FileOps s event) :=
  match event with
  | .start _ op => decidable_of_iff (op.Fits s.server.im ∧ op.onFile = true) (and_congr_right fun _ => onFile_iff op)
  | .acquire _ | .look _ | .serve _ _ _ | .update _ | .ack _ _ | .reply _ | .finish _ =>
      inferInstanceAs (Decidable True)

end SingleCopy

section FileRuns

-- Only files are operated on: every update_handler call is for the file whose lock is held.
structure FileRun (s : Sys n) : Prop where
  inv : Inv s
  ops : ∀ c op, (s.pc c).op = some op → ∃ ino fop, op = .file ino fop
  jobs : ∀ c job, s.rpc c = .updating job → (s.pc c).held = some job.id ∧ job.todo = []

-- The loop of broadcast, with no other update_cache call to come.
theorem broadcast_job {server server' : Server n} {junk : Stack} {register id : Nat} {reply : Reply}
    {rest : List (Fin n)} {job : Job n}
    (h : server.broadcast junk c register reply id rest [] = some (server', .updating job)) :
    job.id = id ∧ job.todo = [] := by
  rw [Server.broadcast] at h
  split at h <;> cases h
  exact ⟨rfl, rfl⟩

theorem put_job {server server' : Server n} {junk : Stack} {now : Times} {id : Nat} {buf : Bytes} {job : Job n}
    (hid : id < InodeManager.INODE_NUM) (h : server.put junk now c id buf = some (server', .updating job)) :
    job.id = id ∧ job.todo = [] := by
  simp only [Server.put, Server.updateAll, mask_eq hid, Option.bind_eq_bind, Option.bind_eq_some_iff] at h
  obtain ⟨server₁, -, server₂, -, hrun⟩ := h
  exact broadcast_job hrun

theorem FileRun.held_of_op {op : Op} (h : FileRun s) (hop : (s.pc c).op = some op) : op.locks = true := by
  obtain ⟨ino, fop, rfl⟩ := h.ops c op hop
  rfl

-- Nothing arrives that the lock does not protect.
theorem FileRun.fresh (h : FileRun s) (event : Event n) : Fresh s event := by
  cases event with
  | reply c =>
      intro op buf hpc hlocks
      have hop : (s.pc c).op = some op := by rw [hpc]; rfl
      exact absurd (h.held_of_op hop) (ne_true_of_eq_false hlocks)
  | update c =>
      intro job hjob hlock
      exact absurd ((h.inv.lock _ _).mpr (h.jobs c job hjob).1) hlock
  | _ => trivial

theorem FileOps.fits {event : Event n} (h : FileOps s event) (c : Fin n) (op : Op) (hevent : event = .start c op) :
    op.Fits s.server.im := by
  subst hevent
  exact h.1

-- The thread that moves has no update_handler call out, or one for its own file.
theorem FileRun.jobs_move (h : FileRun s) {pc : Pc} {call : Call n} (hpc : s'.pc = Function.update s.pc c pc)
    (hrpc : s'.rpc = Function.update s.rpc c call)
    (hcall : ∀ job, call = .updating job → pc.held = some job.id ∧ job.todo = []) (d : Fin n) (job : Job n)
    (hjob : s'.rpc d = .updating job) : (s'.pc d).held = some job.id ∧ job.todo = [] := by
  rw [hrpc] at hjob
  rw [hpc]
  by_cases hd : d = c
  · subst hd
    rw [Function.update_self] at hjob ⊢
    exact hcall job hjob
  · rw [Function.update_of_ne hd] at hjob ⊢
    exact h.jobs d job hjob

theorem FileRun.jobs_got (h : FileRun s) {op : Op} {buf : Bytes} {s₁ : Sys n} (hgot : s₁.got c op buf = some s')
    (hpc : s₁.pc = s.pc) (hrpc : s₁.rpc = s.rpc) :
    ∀ d job, s'.rpc d = .updating job → (s'.pc d).held = some job.id ∧ job.todo = [] := by
  rcases got_cases hgot with ⟨result, -, rfl⟩ | ⟨req, result, -, rfl⟩
  · have hnone : Function.update s₁.rpc c .none = Function.update s.rpc c .none := by rw [hrpc]
    exact h.jobs_move (congrArg (Function.update · c _) hpc) hnone fun _ hjob => nomatch hjob
  · have hreq : Function.update s₁.rpc c (.requested req) = Function.update s.rpc c (.requested req) := by rw [hrpc]
    exact h.jobs_move (congrArg (Function.update · c _) hpc) hreq fun _ hjob => nomatch hjob

theorem FileRun.step {event : Event n} (h : FileRun s) (hops : FileOps s event) (hwritable : Writable s event)
    (hmoves : Moves s event s') : FileRun s' := by
  refine ⟨h.inv.step hops.fits (h.fresh event) hwritable hmoves, fun d op hop => ?_, ?_⟩
  · rcases op_of_moves hmoves hop with hold | rfl
    · exact h.ops d op hold
    · exact hops.2
  · cases hmoves with
    | @start c op hpc =>
        have hrpc := (hpc ▸ h.inv.thread c).of_idle
        exact h.jobs_move rfl (Function.update_eq_self c s.rpc).symm fun _ hjob => nomatch hrpc.symm.trans hjob
    | @acquire c op hpc =>
        have hrpc := (hpc ▸ h.inv.thread c).of_acquiring.1
        exact h.jobs_move rfl (Function.update_eq_self c s.rpc).symm fun _ hjob => nomatch hrpc.symm.trans hjob
    | hit hpc hbuf hgot => exact h.jobs_got hgot rfl rfl
    | miss => exact h.jobs_move rfl rfl fun _ hjob => nomatch hjob
    | @serve c junk now req server call hrpc hrun =>
        refine h.jobs_move (Function.update_eq_self c s.pc).symm rfl fun job hjob => ?_
        subst hjob
        rcases (hrpc ▸ h.inv.thread c).of_requested with ⟨op, hpc, rfl, hfits⟩ | ⟨op, result, hpc, hfits, hlocks, hnext⟩
        · cases hrun
        · obtain ⟨ino, fop, rfl⟩ := h.ops c op (by rw [hpc]; rfl)
          obtain ⟨rfl, -⟩ := next_call hnext
          obtain ⟨rfl, htodo⟩ := put_job hfits.1.1 hrun
          exact ⟨by rw [hpc]; rfl, htodo⟩
    | @update c job hrpc hdelivered =>
        refine h.jobs_move (Function.update_eq_self c s.pc).symm rfl fun job' hjob => ?_
        cases hjob
        exact h.jobs c job hrpc
    | @ack c junk job server call hrpc hdelivered hrun =>
        refine h.jobs_move (Function.update_eq_self c s.pc).symm rfl fun job' hjob => ?_
        subst hjob
        obtain ⟨hheld, htodo⟩ := h.jobs c job hrpc
        rw [htodo] at hrun
        obtain ⟨hid, htodo'⟩ := broadcast_job hrun
        exact ⟨by rw [hid, hheld], htodo'⟩
    | data hrpc hpc hgot => exact h.jobs_got hgot rfl rfl
    | answer => exact h.jobs_move rfl rfl fun _ hjob => nomatch hjob
    | @finish c op result hpc =>
        have hrpc := (hpc ▸ h.inv.thread c).of_releasing.1
        have hjobs : ∀ d job, (s.setPc c .idle).rpc d = .updating job →
            ((s.setPc c .idle).pc d).held = some job.id ∧ job.todo = [] :=
          h.jobs_move rfl (Function.update_eq_self c s.rpc).symm fun _ hjob => nomatch hrpc.symm.trans hjob
        split <;> exact hjobs

end FileRuns

section Copies

-- How far the operation that holds the lock of f has come: base is the content before it.
def Tracks (f : Nat) (base content : Bytes) : Pc → Call n → Prop
  | .releasing op result, _ => ∃ fop, op = .file f fop ∧ fop.apply base = (content, result)
  | .calling _ _, .requested _ => content = base
  | .calling op result, _ => ∃ fop, op = .file f fop ∧ ∀ reply, fop.apply base = (content, result reply)
  | _, _ => content = base

structure Copy (init : Bytes) (s : Sys n) (f : Nat) (base : Bytes) : Prop where
  file : IsFile s.server.im f
  replays : Replays FileOp.apply init (s.history f) base
  free : s.lock f = none → s.server.dataCache f = base
  tracks : ∀ c, s.lock f = some c → Tracks f base (s.server.dataCache f) (s.pc c) (s.rpc c)

variable {init base : Bytes}

theorem IsFile.readable {im : Fs} (h : IsFile im f) : Readable im f := ⟨h.1, h.2 ▸ by decide⟩

theorem IsFile.keep {im im' : Fs} (h : IsFile im f) (hkeeps : Keeps im im') : IsFile im' f :=
  ⟨hkeeps.live h.1, (hkeeps f h.1).trans h.2⟩

-- One thread moves; the file stays as it is.
theorem Copy.move (h : Copy init s f base) {pc : Pc} {call : Call n} (hfile : IsFile s'.server.im f)
    (hdata : s'.server.dataCache f = s.server.dataCache f) (hlog : s'.log = s.log) (hlock : s'.lock f = s.lock f)
    (hpc : s'.pc = Function.update s.pc c pc) (hrpc : s'.rpc = Function.update s.rpc c call)
    (htracks : s.lock f = some c → Tracks f base (s.server.dataCache f) (s.pc c) (s.rpc c) →
      Tracks f base (s.server.dataCache f) pc call) : Copy init s' f base where
  file := hfile
  replays := by
    rw [Sys.history, hlog]
    exact h.replays
  free hnone := hdata.trans (h.free (hlock.symm.trans hnone))
  tracks d hd := by
    rw [hlock] at hd
    rw [hdata, hpc, hrpc]
    by_cases hc : d = c
    · subst hc
      rw [Function.update_self, Function.update_self]
      exact htracks hd (h.tracks d hd)
    · rw [Function.update_of_ne hc, Function.update_of_ne hc]
      exact h.tracks d hd

-- A thread whose operation is on a file has the lock of that file and of no other.
theorem FileRun.ino_of_lock {op : Op} (h : FileRun s) (hlock : s.lock f = some c)
    (hheld : (s.pc c).held = if op.locks then some op.ino else none) (hop : (s.pc c).op = some op) :
    ∃ fop, op = .file f fop := by
  obtain ⟨ino, fop, rfl⟩ := h.ops c op hop
  rw [h.inv.lock, hheld] at hlock
  cases hlock
  exact ⟨fop, rfl⟩

-- ec->get has returned the content of the file.
theorem Copy.got {op : Op} {buf : Bytes} {s₁ : Sys n} (h : Copy init s f base) (hrun : FileRun s)
    (hgot : s₁.got c op buf = some s') (hserver : s₁.server = s.server) (hlog : s₁.log = s.log)
    (hlock : s₁.lock = s.lock) (hpc₁ : s₁.pc = s.pc) (hrpc₁ : s₁.rpc = s.rpc)
    (hpc : s.pc c = .ready op ∨ s.pc c = .getting op)
    (hbuf : s.lock f = some c → buf = s.server.dataCache f) : Copy init s' f base := by
  have hheld : (s.pc c).held = if op.locks then some op.ino else none := by rcases hpc with hpc | hpc <;> rw [hpc] <;> rfl
  have hop : (s.pc c).op = some op := by rcases hpc with hpc | hpc <;> rw [hpc] <;> rfl
  have hbase : Tracks f base (s.server.dataCache f) (s.pc c) (s.rpc c) → s.server.dataCache f = base := by
    rcases hpc with hpc | hpc <;> rw [hpc] <;> exact fun h => h
  rcases got_cases hgot with ⟨result, hnext, rfl⟩ | ⟨req, result, hnext, rfl⟩
  · have hnone : Function.update s₁.rpc c .none = Function.update s.rpc c .none := by rw [hrpc₁]
    refine h.move (hserver ▸ h.file) (hserver ▸ rfl) hlog (congrFun hlock f) (congrArg (Function.update · c _) hpc₁)
      hnone fun hf htracks => ?_
    obtain ⟨fop, rfl⟩ := hrun.ino_of_lock hf hheld hop
    refine ⟨fop, rfl, ?_⟩
    rw [hbuf hf] at hnext
    have happly := next_done hnext
    rwa [hbase htracks] at happly ⊢
  · have hreq : Function.update s₁.rpc c (.requested req) = Function.update s.rpc c (.requested req) := by rw [hrpc₁]
    exact h.move (hserver ▸ h.file) (hserver ▸ rfl) hlog (congrFun hlock f) (congrArg (Function.update · c _) hpc₁)
      hreq fun _ htracks => hbase htracks

theorem tracks_of_sent {server : Server n} {call : Call n} {content : Bytes} {op : Op} {result : Reply → Result}
    (hsent : Sent server call) {fop : FileOp} (hop : op = .file f fop)
    (happly : ∀ reply, fop.apply base = (content, result reply)) : Tracks f base content (.calling op result) call := by
  rcases hsent.cases with ⟨job, rfl⟩ | ⟨reply, rfl⟩
  · exact ⟨fop, hop, happly⟩
  · exact ⟨fop, hop, happly⟩

theorem Copy.serve {server : Server n} {call : Call n} {junk : Stack} {now : Times} {req : Request}
    (h : Copy init s f base) (hrun : FileRun s) (hrpc : s.rpc c = .requested req)
    (hhandle : s.server.handle junk now c req = some (server, call)) (hsound : Sound junk now s.server req) :
    Copy init ({ s with server := server }.setRpc c call) f base := by
  rcases (hrpc ▸ hrun.inv.thread c).of_requested with ⟨op, hpc, rfl, hfits⟩ | ⟨op, result, hpc, hfits, hlocks, hnext⟩
  · cases hhandle
    refine h.move h.file rfl rfl rfl (Function.update_eq_self c s.pc).symm rfl fun _ htracks => ?_
    rw [hpc] at htracks ⊢
    exact htracks
  · obtain ⟨ino, fop, rfl⟩ := hrun.ops c op (by rw [hpc]; rfl)
    obtain ⟨hreq, hresult⟩ := next_call hnext
    obtain ⟨buf, hwritten, hhandled⟩ := handled_of_call hrun.inv.stored hfits hnext hsound hhandle
    simp only [Op.ino] at hreq hresult hwritten hhandled
    have hfile := h.file.keep hhandled.grows.keeps
    have hlock : s.lock ino = some c := by rw [hrun.inv.lock, hpc]; rfl
    by_cases hf : f = ino
    · -- the operation takes effect
      subst hf
      have hbase : s.server.dataCache f = base := by
        have htracks := h.tracks c hlock
        rwa [hpc, hrpc] at htracks
      have hnew : server.dataCache f = (fop.apply base).1 := by
        rw [hhandled.data, ← hbase]
        subst hreq
        exact hwritten
      refine ⟨hfile, h.replays, fun hnone => ?_, fun d hd => ?_⟩
      · exact nomatch hlock.symm.trans hnone
      · obtain rfl : c = d := Option.some.inj (hlock.symm.trans hd)
        show Tracks f base (server.dataCache f) (s.pc c) (Function.update s.rpc c call c)
        rw [Function.update_self, hpc]
        refine tracks_of_sent hhandled.sent rfl fun reply => ?_
        rw [hnew, hresult reply, hbase]
    · have hdata : server.dataCache f = s.server.dataCache f := hhandled.grows.data f h.file.readable hf
      refine h.move hfile hdata rfl rfl (Function.update_eq_self c s.pc).symm rfl fun hc => ?_
      rw [hrun.inv.lock, hpc] at hc
      exact absurd (Option.some.inj hc).symm hf

theorem Copy.finish {op : Op} {result : Result} (h : Copy init s f base) (hrun : FileRun s)
    (hpc : s.pc c = .releasing op result) :
    ∃ base', Copy init { (if op.locks then s.setLock op.ino none else s).setPc c .idle with
      log := s.log ++ [(c, op, result)] } f base' := by
  obtain ⟨ino, fop, rfl⟩ := hrun.ops c op (by rw [hpc]; rfl)
  rw [if_pos (show (Op.file ino fop).locks = true from rfl)]
  have hlock : s.lock ino = some c := by rw [hrun.inv.lock, hpc]; rfl
  by_cases hf : ino = f
  · subst hf
    have htracks := h.tracks c hlock
    rw [hpc] at htracks
    obtain ⟨fop', heq, happly⟩ := htracks
    cases heq
    have hreplays := replays_snoc fop h.replays
    rw [happly] at hreplays
    refine ⟨s.server.dataCache ino, h.file, ?_, fun _ => rfl, fun d hd => ?_⟩
    · simpa [Sys.history] using hreplays
    · exact nomatch (Function.update_self ..).symm.trans hd
  · refine ⟨base, h.file, ?_, fun hnone => h.free ?_, fun d hd => ?_⟩
    · simpa [Sys.history, hf] using h.replays
    · exact (Function.update_of_ne (Ne.symm hf) ..).symm.trans hnone
    · have hold : s.lock f = some d := (Function.update_of_ne (Ne.symm hf) ..).symm.trans hd
      have hne : d ≠ c := by
        rintro rfl
        rw [hrun.inv.lock, hpc] at hold
        exact hf (Option.some.inj hold)
      show Tracks f base (s.server.dataCache f) (Function.update s.pc c .idle d) (s.rpc d)
      rw [Function.update_of_ne hne]
      exact h.tracks d hold

theorem Copy.acquire {op : Op} (h : Copy init s f base) (hrun : FileRun s) (hpc : s.pc c = .acquiring op)
    (hfree : s.lock op.ino = none) : Copy init ((s.setPc c (.ready op)).setLock op.ino (some c)) f base := by
  have hrpc := (hpc ▸ hrun.inv.thread c).of_acquiring.1
  by_cases hf : op.ino = f
  · subst hf
    have hself : ((s.setPc c (.ready op)).setLock op.ino (some c)).lock op.ino = some c := Function.update_self ..
    refine ⟨h.file, h.replays, fun hnone => ?_, fun d hd => ?_⟩
    · exact nomatch hself.symm.trans hnone
    · obtain rfl : c = d := Option.some.inj (hself.symm.trans hd)
      show Tracks op.ino base (s.server.dataCache op.ino) (Function.update s.pc c (.ready op) c) (s.rpc c)
      rw [Function.update_self]
      exact h.free hfree
  · refine h.move h.file rfl rfl (Function.update_of_ne (Ne.symm hf) ..) rfl (Function.update_eq_self c s.rpc).symm
      fun hc => ?_
    rw [hrun.inv.lock, hpc] at hc
    cases hc

-- A thread that has a lock has an operation, and has taken it.
theorem Copy.step {event : Event n} (h : Copy init s f base) (hrun : FileRun s) (hwritable : Writable s event)
    (hmoves : Moves s event s') : ∃ base', Copy init s' f base' := by
  cases hmoves with
  | @start c op hpc =>
      refine ⟨base, h.move h.file rfl rfl rfl rfl (Function.update_eq_self c s.rpc).symm fun hc => ?_⟩
      rw [hrun.inv.lock, hpc] at hc
      cases hc
  | acquire hpc hfree => exact ⟨base, h.acquire hrun hpc hfree⟩
  | @hit c op buf next hpc hbuf hgot =>
      obtain ⟨hrpc, hfits⟩ := (hpc ▸ hrun.inv.thread c).of_ready
      refine ⟨base, h.got hrun hgot rfl rfl rfl rfl rfl (.inl hpc) fun hf => ?_⟩
      obtain ⟨fop, rfl⟩ := hrun.ino_of_lock hf (by rw [hpc]; rfl) (by rw [hpc]; rfl)
      exact hrun.inv.cached_held (by rw [hpc]; rfl) (fun _ hjob => nomatch hrpc.symm.trans hjob) h.file.readable hbuf
  | miss hpc =>
      refine ⟨base, h.move h.file rfl rfl rfl rfl rfl fun _ htracks => ?_⟩
      rw [hpc] at htracks
      exact htracks
  | serve hrpc hhandle => exact ⟨base, h.serve hrun hrpc hhandle (hwritable _ hrpc)⟩
  | @update c job hrpc hdelivered =>
      obtain ⟨op, result, hpc, -⟩ := (hrpc ▸ hrun.inv.thread c).of_updating
      refine ⟨base, h.move h.file rfl rfl rfl (Function.update_eq_self c s.pc).symm rfl fun _ htracks => ?_⟩
      rw [hpc, hrpc] at htracks
      rw [hpc]
      exact htracks
  | @ack c junk job server call hrpc hdelivered hbroadcast =>
      obtain ⟨op, result, hpc, -, -, hjob, -⟩ := (hrpc ▸ hrun.inv.thread c).of_updating
      obtain ⟨hsent, hgrows, -⟩ := broadcast_spec hrun.inv.stored hjob.live hbroadcast
      have hdata : server.dataCache f = s.server.dataCache f := hgrows.data f h.file.readable fun hf => hf
      refine ⟨base, h.move (h.file.keep hgrows.keeps) hdata rfl rfl (Function.update_eq_self c s.pc).symm rfl
        fun _ htracks => ?_⟩
      rw [hpc, hrpc] at htracks
      obtain ⟨fop, hop, happly⟩ := htracks
      rw [hpc]
      exact tracks_of_sent hsent hop happly
  | @data c op buf next hrpc hpc hgot =>
      refine ⟨base, h.got hrun hgot rfl rfl rfl rfl rfl (.inr hpc) fun hf => ?_⟩
      obtain ⟨fop, rfl⟩ := hrun.ino_of_lock hf (by rw [hpc]; rfl) (by rw [hpc]; rfl)
      have hthread := hrun.inv.thread c
      rw [hpc, hrpc] at hthread
      cases hthread with
      | answered hfits hreg hdata => exact hdata rfl
  | answer hrpc hpc =>
      refine ⟨base, h.move h.file rfl rfl rfl rfl rfl fun _ htracks => ?_⟩
      rw [hpc, hrpc] at htracks
      obtain ⟨fop, hop, happly⟩ := htracks
      exact ⟨fop, hop, happly _⟩
  | finish hpc => exact h.finish hrun hpc

end Copies

section NoLostUpdate

-- No operation is under way, and the store has been reached by calls on inodes in use that met
-- the given condition.
def Started (condition : Fs → InodeManager.Event → Prop) (s : Sys n) : Prop :=
  Quiet s ∧ Reachable (Guarded (fun im event => InodeManager.Legal im event ∧ condition im event) InodeManager.Step)
    InodeManager.Initial s.server.im

theorem no_lost_update {start : Sys n} (hstart : Started InodeManager.FreshIndirect start)
    (hr : Reachable (Guarded (fun s event => FileOps s event ∧ Writable s event) Step) (· = start) s)
    (hf : IsFile start.server.im f) : SingleCopy (start.server.dataCache f) s f := by
  have h : FileRun s ∧ ∃ base, Copy (start.server.dataCache f) s f base := by
    refine hr.invariant (fun s => FileRun s ∧ ∃ base, Copy (start.server.dataCache f) s f base) ?_ ?_
    · rintro s rfl
      obtain ⟨hquiet, hstore⟩ := hstart
      refine ⟨⟨hquiet.inv (InodeManager.reachable_owned hstore), fun c op hop => ?_, fun c job hjob => ?_⟩,
        _, hf, ?_, fun _ => rfl, fun c hc => ?_⟩
      · exact nomatch hquiet.pc c ▸ hop
      · exact nomatch (hquiet.rpc c).symm.trans hjob
      · rw [Sys.history, hquiet.log]
        rfl
      · exact nomatch (hquiet.lock f).symm.trans hc
    · rintro s event next ⟨hrun, base, hcopy⟩ ⟨⟨hops, hwritable⟩, hstep⟩
      have hmoves := moves_of_step hstep
      exact ⟨hrun.step hops hwritable hmoves, hcopy.step hrun hwritable hmoves⟩
  obtain ⟨-, base, hcopy⟩ := h
  exact ⟨base, hcopy.replays, hcopy.free⟩

-- The clients have copies of the root and of file 2, and no operation is under way. A file that
-- was written past its direct blocks and unlinked may have had inode 2 before.
def reused (im : Fs) : Sys n :=
  let dataCache := fun id =>
    if id < InodeManager.INODE_NUM ∧ (im.inode id).type ≠ 0 then im.content (im.inode id) else []
  { server := {
      im := im
      clients := fun _ id => id == 1 || id == 2
      dataCache := dataCache
      attrCache := fun _ => {} }
    client := fun _ => {
      dataCache := fun id => if id = 1 ∨ id = 2 then some (dataCache id) else none
      attrCache := fun _ => none }
    pc := fun _ => .idle
    rpc := fun _ => .none
    lock := fun _ => none
    log := [] }

theorem quiet_reused {im : Fs} (h₁ : im.Live 1) (h₂ : im.Live 2) : Quiet (reused im : Sys n) where
  pc _ := rfl
  rpc _ := rfl
  lock _ := rfl
  log := rfl
  stored _ hlive := if_pos hlive
  free _ _ hfree := if_neg hfree
  cached c id buf hbuf := by
    have hcached :
        (if id = 1 ∨ id = 2 then some ((reused im : Sys n).server.dataCache id) else none) = some buf := hbuf
    split at hcached
    · next hid =>
        cases hcached
        refine ⟨?_, ?_, rfl⟩
        · rcases hid with rfl | rfl <;> rfl
        · rcases hid with rfl | rfl
          · exact h₁
          · exact h₂
    · cases hcached

-- Client c writes a new file while client d waits for its lock. Client d then writes over the
-- second byte, and client c reads.
def overwritten (c d : Fin n) : List (Event n) :=
  let junk : Stack := .zero
  let now : Times := ⟨1, 1, 1⟩
  [.start c (.file 2 (.write 0 [7, 8])), .acquire c, .start d (.file 2 (.write 1 [9])), .look c, .serve c junk now,
    .update c, .ack c junk, .update c, .ack c junk, .reply c, .finish c,
    .acquire d, .look d, .serve d junk now, .start c (.file 2 (.read 10 0)),
    .update d, .ack d junk, .update d, .ack d junk, .reply d, .finish d,
    .acquire c, .look c, .finish c]

theorem no_lost_update_writes : ∃ start s : Sys 2, start.server.dataCache 2 = [] ∧
    s.history 2 = [(.write 0 [7, 8], .written 2), (.write 1 [9], .written 1), (.read 10 0, .data [7, 9])] ∧
    s.lock 2 = none ∧ SingleCopy (start.server.dataCache 2) s 2 := by
  have hrun : ((InodeManager.step InodeManager.startFs (.allocInode T_FILE)).bind fun im =>
      (execute (fun s event => if FileOps s event ∧ Writable s event then step s event else none)
        (reused im : Sys 2) (overwritten 0 1)).map fun s => ((im.inode 1).type, (im.inode 2).type, s.history 2,
          decide ((reused im : Sys 2).server.dataCache 2 = [] ∧ s.lock 2 = none))) =
      some (1, 2, [(.write 0 [7, 8], .written 2), (.write 1 [9], .written 1), (.read 10 0, .data [7, 9])], true) := by
    decide +kernel
  obtain ⟨im, halloc, hexec⟩ := Option.bind_eq_some_iff.mp hrun
  obtain ⟨s, hs, hfields⟩ := Option.map_eq_some_iff.mp hexec
  simp only [Prod.mk.injEq, decide_eq_true_eq] at hfields
  obtain ⟨hroot, htype, hhistory, hempty, hlock⟩ := hfields
  have hlive₁ : im.Live 1 := ⟨by decide, by rw [hroot]; decide⟩
  have hlive₂ : im.Live 2 := ⟨by decide, by rw [htype]; decide⟩
  have hstart : Started InodeManager.FreshIndirect (reused im : Sys 2) :=
    ⟨quiet_reused hlive₁ hlive₂,
      (Reachable.start InodeManager.initial_startFs).guarded (.allocInode T_FILE) ⟨trivial, trivial⟩ halloc⟩
  exact ⟨reused im, s, hempty, hhistory, hlock,
    no_lost_update hstart (.executed (.start rfl) hs) ⟨hlive₂, htype⟩⟩

end NoLostUpdate

section Lost

theorem copyFrom_append (pre post : Bytes) {mid data : Bytes} (h : mid.length = data.length) :
    copyFrom (pre ++ (mid ++ post)) pre.length data = pre ++ (data ++ post) := by
  induction data generalizing pre mid with
  | nil => rw [List.length_eq_zero_iff.mp h, copyFrom]
  | cons b data ih =>
      cases mid with
      | nil => cases h
      | cons a mid =>
          have hset : (pre ++ (a :: mid ++ post)).set pre.length b = (pre ++ [b]) ++ (mid ++ post) := by simp
          have hlen : pre.length + 1 = (pre ++ [b]).length := by simp
          rw [copyFrom, hset, hlen, ih (pre ++ [b]) (Nat.succ.inj h)]
          simp

theorem write_nil {data : Bytes} (h : data.length < 2 ^ 64) : Yfs.write [] 0 data = data := by
  have hmod : (0 + data.length) % 2 ^ 64 = data.length := by rw [Nat.zero_add, Nat.mod_eq_of_lt h]
  have hgrown : (if 0 < data.length then zeroFrom (resize [] data.length) 0 (0 - 0) else []) =
      List.replicate data.length 0 := by
    cases data with
    | nil => rfl
    | cons b data => simp [zeroFrom, resize]
  have hcopy := copyFrom_append [] [] (List.length_replicate (n := data.length) (a := (0 : UInt8)))
  simp only [List.nil_append, List.append_nil, List.length_nil] at hcopy
  simp only [Yfs.write, hmod, List.length_nil, hgrown]
  exact hcopy

-- The content the server holds after the put is the one read back from the disk.
theorem put_reused {server : Server 1} {im : Fs} {junk : Stack} {now : Times} {buf content : Bytes}
    (hreg : server.clients 0 2 = true) (hwrite : InodeManager.writeFile junk now 2 buf server.im = .ok () im)
    (hread : InodeManager.readFile junk 2 im = .ok (some content) im) :
    ∃ server' job, server.put junk now 0 2 buf = some (server', .updating job) ∧
      server'.dataCache 2 = content ∧ job.delivered = false ∧ job.rest = [] ∧ job.todo = [] ∧ job.reply = .ok := by
  have hstore : server.writeFile junk now 2 buf = some { server with im := im } := by
    rw [Server.writeFile, show 2 % 2 ^ 32 = 2 from rfl, store_ok server hwrite]
    rfl
  obtain ⟨attr, hupdate⟩ := updateCache_of_readFile { server with im := im } (by decide) hread
  have hmask : mask 2 = 2 := rfl
  have hall : List.finRange 1 = [0] := rfl
  simp only [Server.put, Server.updateAll, hmask, hstore, hupdate, hall, Option.bind_eq_bind, Option.bind_some]
  rw [Server.broadcast, List.dropWhile_cons_of_neg (by simp [hreg])]
  exact ⟨_, _, rfl, Function.update_self 2 content server.dataCache, rfl, rfl, rfl, rfl⟩

-- The only client writes the file.
theorem write_reused {im im' : Fs} {buf content : Bytes} (hfile : IsFile im 2)
    (hempty : (reused im : Sys 1).server.dataCache 2 = []) (hbuf : buf.length < 2 ^ 64)
    (hwrite : InodeManager.writeFile Stack.zero ⟨1, 1, 1⟩ 2 buf im = .ok () im')
    (hread : InodeManager.readFile .zero 2 im' = .ok (some content) im') :
    ∃ s : Sys 1, Reachable (Guarded FileOps Step) (· = reused im) s ∧
      s.lock 2 = none ∧ s.history 2 = [(.write 0 buf, .written buf.length)] ∧ s.server.dataCache 2 = content := by
  have hreg : (reused im : Sys 1).server.clients 0 2 = true := rfl
  obtain ⟨server, job, hput, hdata, hdelivered, hrest, htodo, hreply⟩ := put_reused hreg hwrite hread
  let op : Op := .file 2 (.write 0 buf)
  let s₁ : Sys 1 := (reused im).setPc 0 (.acquiring op)
  let s₂ : Sys 1 := (s₁.setPc 0 (.ready op)).setLock 2 (some 0)
  let s₃ : Sys 1 := (s₂.setPc 0 (.calling op fun _ => .written buf.length)).setRpc 0 (.requested (.put 2 buf))
  let s₄ : Sys 1 := { s₃ with server := server }.setRpc 0 (.updating job)
  let client := (s₄.client job.target).updateHandler job.id job.attr job.data
  let s₅ : Sys 1 := (s₄.setClient job.target client).setRpc 0 (.updating { job with delivered := true })
  let s₆ : Sys 1 := { s₅ with server := server.insert 0 job.register }.setRpc 0 (.replied .ok)
  let s₇ : Sys 1 := (s₆.setPc 0 (.releasing op (.written buf.length))).setRpc 0 .none
  let s₈ : Sys 1 := { (s₇.setLock 2 none).setPc 0 .idle with log := [(0, op, .written buf.length)] }
  have hlook : step s₂ (.look 0) = some s₃ := by
    have hgot : step s₂ (.look 0) = s₂.got 0 op ((reused im : Sys 1).server.dataCache 2) := rfl
    rw [hgot, hempty, Sys.got, Op.next, FileOp.next, write_nil hbuf]
    rfl
  have hserve : step s₃ (.serve 0 Stack.zero ⟨1, 1, 1⟩) = some s₄ := by
    show ((reused im : Sys 1).server.put Stack.zero ⟨1, 1, 1⟩ 0 2 buf).map _ = _
    rw [hput]
    rfl
  have hupdate : step s₄ (.update 0) = some s₅ := by
    show (if job.delivered then none else some s₅) = some s₅
    rw [hdelivered]
    rfl
  have hack : step s₅ (.ack 0 .zero) = some s₆ := by
    show (server.broadcast .zero 0 job.register job.reply job.id job.rest job.todo).map _ = _
    rw [hrest, htodo, hreply]
    rfl
  have h₀ : Reachable (Guarded FileOps Step) (· = reused im) (reused im : Sys 1) := .start rfl
  have h₁ := h₀.guarded (.start 0 op) ⟨hfile, 2, _, rfl⟩ (show step _ _ = some s₁ from rfl)
  have h₂ := h₁.guarded (.acquire 0) trivial (show step _ _ = some s₂ from rfl)
  have h₃ := h₂.guarded (.look 0) trivial hlook
  have h₄ := h₃.guarded (.serve 0 Stack.zero ⟨1, 1, 1⟩) trivial hserve
  have h₅ := h₄.guarded (.update 0) trivial hupdate
  have h₆ := h₅.guarded (.ack 0 .zero) trivial hack
  have h₇ := h₆.guarded (.reply 0) trivial (show step _ _ = some s₇ from rfl)
  exact ⟨s₈, h₇.guarded (.finish 0) trivial rfl, rfl, rfl, hdata⟩

theorem content_of_write {init buf content : Bytes} {off : Nat} {result : Result}
    (h : Replays FileOp.apply init [(.write off buf, result)] content) : content = Yfs.write init off buf := h.2

theorem update_lost : ∃ start s : Sys 1, Started (fun _ _ => True) start ∧ IsFile start.server.im 2 ∧
    Reachable (Guarded FileOps Step) (· = start) s ∧ ¬ SingleCopy (start.server.dataCache 2) s 2 := by
  obtain ⟨im, im', hreach, hwrite, -, ⟨hroot, htype, hsize⟩, -, hsize', hind, href, hbyte⟩ := InodeManager.reuse_states
  obtain ⟨out, hread, hlen⟩ := InodeManager.reuse_readFile hsize' hind href hbyte .zero
  have hlive₁ : im.Live 1 := ⟨by decide, by rw [hroot]; decide⟩
  have hlive₂ : im.Live 2 := ⟨by decide, by rw [htype]; decide⟩
  have hempty : (reused im : Sys 1).server.dataCache 2 = [] := by
    have hcontent : (reused im : Sys 1).server.dataCache 2 = im.content (im.inode 2) := if_pos hlive₂
    rw [hcontent, InodeManager.Fs.content, hsize]
    rfl
  have hpast : InodeManager.pastDirect.length < 2 ^ 64 := by
    rw [InodeManager.pastDirect, List.length_append, List.length_replicate]
    decide
  obtain ⟨s, hr, hlock, hhistory, hdata⟩ := write_reused ⟨hlive₂, htype⟩ hempty hpast hwrite hread
  have hstore : Reachable (Guarded (fun im event => InodeManager.Legal im event ∧ True) InodeManager.Step)
      InodeManager.Initial im := by simpa only [and_true] using hreach
  refine ⟨reused im, s, ⟨quiet_reused hlive₁ hlive₂, hstore⟩, ⟨hlive₂, htype⟩, hr, ?_⟩
  rintro ⟨content, hreplays, hfinal⟩
  rw [hhistory, hempty] at hreplays
  have hcontent := content_of_write hreplays
  have hsame : out ++ [0] = InodeManager.pastDirect :=
    calc out ++ [0] = content := hdata.symm.trans (hfinal hlock)
      _ = Yfs.write [] 0 InodeManager.pastDirect := hcontent
      _ = InodeManager.pastDirect := write_nil hpast
  -- the last byte written is 2
  rw [InodeManager.pastDirect] at hsame
  have hlast : ([0] : Bytes) = [2] := (List.append_inj' hsame rfl).2
  exact absurd hlast (by decide)

end Lost

end CseLabs.Yfs
