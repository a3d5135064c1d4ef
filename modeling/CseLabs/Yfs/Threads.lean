import CseLabs.Yfs

namespace CseLabs.Yfs

open InodeManager (Bytes Stack Times Fs T_DIR T_FILE T_SYMLINK)
open Extent

variable {n : Nat} {s s' : Sys n} {c : Fin n}

section Threads

theorem Op.Fits.readable {im : Fs} {op : Op} (h : op.Fits im) : Readable im op.ino := by
  refine ⟨h.1, ?_⟩
  rw [h.2]
  unfold Op.type
  split <;> decide

theorem Op.Fits.keep {im im' : Fs} {op : Op} (h : op.Fits im) (hkeeps : Keeps im im') : op.Fits im' :=
  ⟨hkeeps.live h.1, (hkeeps _ h.1).trans h.2⟩

-- The inode whose lock the thread holds.
def Pc.held : Pc → Option Nat
  | .idle => none
  | .acquiring _ => none
  | .ready op => if op.locks then some op.ino else none
  | .getting op => if op.locks then some op.ino else none
  | .calling op _ => if op.locks then some op.ino else none
  | .releasing op _ => if op.locks then some op.ino else none

-- A thread and its RPC. What a thread that holds a lock has been told about the file, and what it
-- has asked for, still agree with the server's copy.
inductive ThreadOk (server : Server n) (c : Fin n) : Pc → Call n → Prop
  | idle : ThreadOk server c .idle .none
  | acquiring {op : Op} (hfits : op.Fits server.im) (hlocks : op.locks = true) :
      ThreadOk server c (.acquiring op) .none
  | ready {op : Op} (hfits : op.Fits server.im) : ThreadOk server c (.ready op) .none
  | asking {op : Op} (hfits : op.Fits server.im) : ThreadOk server c (.getting op) (.requested (.get op.ino))
  | answered {op : Op} {buf : Bytes} (hfits : op.Fits server.im) (hreg : server.clients c op.ino = true)
      (hdata : op.locks = true → buf = server.dataCache op.ino) :
      ThreadOk server c (.getting op) (.replied (.data buf))
  | requesting {op : Op} {req : Request} {result : Reply → Result} (hfits : op.Fits server.im)
      (hlocks : op.locks = true) (hnext : op.next (server.dataCache op.ino) = some (.call req result)) :
      ThreadOk server c (.calling op result) (.requested req)
  | updating {op : Op} {job : Job n} {result : Reply → Result} (hfits : op.Fits server.im) (hlocks : op.locks = true)
      (hjob : JobOk server job) (hdata : job.id = op.ino → job.delivered = false → job.data = server.dataCache job.id) :
      ThreadOk server c (.calling op result) (.updating job)
  | replied {op : Op} {reply : Reply} {result : Reply → Result} (hfits : op.Fits server.im) (hlocks : op.locks = true) :
      ThreadOk server c (.calling op result) (.replied reply)
  | releasing {op : Op} {result : Result} (hfits : op.Fits server.im) : ThreadOk server c (.releasing op result) .none

-- The other threads do not see a change of a file whose lock they do not hold.
theorem ThreadOk.grow {server server' : Server n} {changed : Nat → Prop} {pc : Pc} {call : Call n}
    (h : ThreadOk server c pc call) (hgrows : Grows server server' changed)
    (hsame : ∀ id, pc.held = some id → ¬ changed id) : ThreadOk server' c pc call := by
  have hdata : ∀ {op : Op}, op.Fits server.im → ¬ changed op.ino →
      server'.dataCache op.ino = server.dataCache op.ino := fun hfits hid => hgrows.data _ hfits.readable hid
  cases h with
  | idle => exact .idle
  | acquiring hfits hlocks => exact .acquiring (hfits.keep hgrows.keeps) hlocks
  | ready hfits => exact .ready (hfits.keep hgrows.keeps)
  | asking hfits => exact .asking (hfits.keep hgrows.keeps)
  | answered hfits hreg hbuf =>
      refine .answered (hfits.keep hgrows.keeps) (hgrows.clients _ _ hreg) fun hlocks => ?_
      rw [hbuf hlocks, hdata hfits (hsame _ (if_pos hlocks))]
  | requesting hfits hlocks hnext =>
      refine .requesting (hfits.keep hgrows.keeps) hlocks ?_
      rw [hdata hfits (hsame _ (if_pos hlocks)), hnext]
  | updating hfits hlocks hjob hbuf =>
      refine .updating (hfits.keep hgrows.keeps) hlocks (hjob.grow hgrows) fun hid hdelivered => ?_
      rw [hbuf hid hdelivered, hid, hdata hfits (hsame _ (if_pos hlocks))]
  | replied hfits hlocks => exact .replied (hfits.keep hgrows.keeps) hlocks
  | releasing hfits => exact .releasing (hfits.keep hgrows.keeps)

section Inversion

variable {server : Server n} {op : Op} {call : Call n} {pc : Pc}

theorem ThreadOk.of_idle (h : ThreadOk server c .idle call) : call = .none := by
  cases h
  rfl

theorem ThreadOk.of_acquiring (h : ThreadOk server c (.acquiring op) call) :
    call = .none ∧ op.Fits server.im ∧ op.locks = true := by
  cases h with
  | acquiring hfits hlocks => exact ⟨rfl, hfits, hlocks⟩

theorem ThreadOk.of_ready (h : ThreadOk server c (.ready op) call) : call = .none ∧ op.Fits server.im := by
  cases h with
  | ready hfits => exact ⟨rfl, hfits⟩

theorem ThreadOk.of_releasing {result : Result} (h : ThreadOk server c (.releasing op result) call) :
    call = .none ∧ op.Fits server.im := by
  cases h with
  | releasing hfits => exact ⟨rfl, hfits⟩

-- A request is a get, or what the operation has made of the content.
theorem ThreadOk.of_requested {req : Request} (h : ThreadOk server c pc (.requested req)) :
    (∃ op, pc = .getting op ∧ req = .get op.ino ∧ op.Fits server.im) ∨
    ∃ op result, pc = .calling op result ∧ op.Fits server.im ∧ op.locks = true ∧
      op.next (server.dataCache op.ino) = some (.call req result) := by
  cases h with
  | asking hfits => exact .inl ⟨_, rfl, rfl, hfits⟩
  | requesting hfits hlocks hnext => exact .inr ⟨_, _, rfl, hfits, hlocks, hnext⟩

theorem ThreadOk.of_updating {job : Job n} (h : ThreadOk server c pc (.updating job)) :
    ∃ op result, pc = .calling op result ∧ op.Fits server.im ∧ op.locks = true ∧ JobOk server job ∧
      (job.id = op.ino → job.delivered = false → job.data = server.dataCache job.id) := by
  cases h with
  | updating hfits hlocks hjob hdata => exact ⟨_, _, rfl, hfits, hlocks, hjob, hdata⟩

end Inversion

end Threads

section Invariant

structure Inv (s : Sys n) : Prop where
  stored : Stored s.server.im s.server.dataCache
  thread : ∀ c, ThreadOk s.server c (s.pc c) (s.rpc c)
  lock : ∀ id c, s.lock id = some c ↔ (s.pc c).held = some id
  cached : ∀ d id buf, (s.client d).dataCache id = some buf → s.server.clients d id = true ∧ s.server.im.Live id
  coherent : ∀ d id buf, Readable s.server.im id → (s.client d).dataCache id = some buf →
    buf = s.server.dataCache id ∨ s.Pending d id

theorem Quiet.inv (h : Quiet s) (hseparated : InodeManager.Separated False s.server.im) : Inv s where
  stored := ⟨hseparated, fun id hreadable => h.stored id hreadable.1, h.free⟩
  thread c := by
    rw [h.pc, h.rpc]
    exact .idle
  lock id c := by
    rw [h.pc, h.lock]
    simp [Pc.held]
  cached d id buf hbuf := ⟨(h.cached d id buf hbuf).1, (h.cached d id buf hbuf).2.1⟩
  coherent d id buf _ hbuf := .inl (h.cached d id buf hbuf).2.2

-- The lock of an inode is held by one thread.
theorem Inv.held_unique (h : Inv s) {d : Fin n} {id : Nat} (hc : (s.pc c).held = some id)
    (hd : (s.pc d).held = some id) : c = d := by
  rw [← h.lock] at hc hd
  exact Option.some.inj (hc.symm.trans hd)

-- One thread moves.
theorem Inv.thread_move (h : Inv s) {pc : Pc} {call : Call n} {changed : Nat → Prop}
    (hpc : s'.pc = Function.update s.pc c pc) (hrpc : s'.rpc = Function.update s.rpc c call)
    (hgrows : Grows s.server s'.server changed) (hchanged : ∀ id, changed id → (s.pc c).held = some id)
    (hthread : ThreadOk s'.server c pc call) (d : Fin n) : ThreadOk s'.server d (s'.pc d) (s'.rpc d) := by
  rw [hpc, hrpc]
  by_cases hd : d = c
  · subst hd
    rw [Function.update_self, Function.update_self]
    exact hthread
  · rw [Function.update_of_ne hd, Function.update_of_ne hd]
    refine (h.thread d).grow hgrows fun id hheld hid => hd ?_
    exact h.held_unique hheld (hchanged id hid)

theorem Inv.lock_move (h : Inv s) {pc : Pc} (hpc : s'.pc = Function.update s.pc c pc) (hlock : s'.lock = s.lock)
    (hheld : pc.held = (s.pc c).held) (id : Nat) (d : Fin n) : s'.lock id = some d ↔ (s'.pc d).held = some id := by
  rw [hlock, hpc, h.lock]
  by_cases hd : d = c
  · subst hd
    rw [Function.update_self, hheld]
  · rw [Function.update_of_ne hd]

theorem Sys.Pending.move {call : Call n} {d : Fin n} {id : Nat} (h : s.Pending d id)
    (hrpc : s'.rpc = Function.update s.rpc c call) (hlock : s'.lock id = s.lock id)
    (hawaits : s.lock id = some c → Awaits (s.rpc c) id d → Awaits call id d) : s'.Pending d id := by
  obtain ⟨holder, hholder, hcall⟩ := h
  refine ⟨holder, hlock.trans hholder, ?_⟩
  rw [hrpc]
  by_cases hc : holder = c
  · subst hc
    rw [Function.update_self]
    exact hawaits hholder hcall
  · rwa [Function.update_of_ne hc]

theorem not_awaits_of_ne {call : Call n} {d : Fin n} {id : Nat} (h : ∀ job, call ≠ .updating job) :
    ¬ Awaits call id d := by
  rintro ⟨job, hjob, -⟩
  exact h job hjob

-- A thread moves on its own: the server, the locks and the caches stay.
theorem Inv.move (h : Inv s) {pc : Pc} {call : Call n} (hthread : ThreadOk s.server c pc call)
    (hheld : pc.held = (s.pc c).held) (hcall : ∀ job, s.rpc c ≠ .updating job)
    (hserver : s'.server = s.server) (hclient : s'.client = s.client) (hlock : s'.lock = s.lock)
    (hpc : s'.pc = Function.update s.pc c pc) (hrpc : s'.rpc = Function.update s.rpc c call) : Inv s' where
  stored := hserver ▸ h.stored
  thread := by
    have hgrows : Grows s.server s'.server nothing := by
      rw [hserver]
      exact .refl _ _
    exact h.thread_move hpc hrpc hgrows (fun _ hf => hf.elim) (hserver ▸ hthread)
  lock := h.lock_move hpc hlock hheld
  cached := by
    rw [hserver, hclient]
    exact h.cached
  coherent d id buf hreadable hbuf := by
    rw [hserver] at hreadable ⊢
    rw [hclient] at hbuf
    exact (h.coherent d id buf hreadable hbuf).imp_right fun hp =>
      hp.move hrpc (congrFun hlock id) fun _ hawaits => absurd hawaits (not_awaits_of_ne hcall)

-- A lock is taken or given back.
theorem Inv.lock_change (h : Inv s) {ino : Nat} {pc : Pc} {holder : Option (Fin n)}
    (hothers : ∀ d, d ≠ c → (s.pc d).held ≠ some ino) (hholder : ∀ d, holder = some d ↔ d = c ∧ pc.held = some ino)
    (hold : ∀ id, id ≠ ino → (s.pc c).held ≠ some id) (hnew : ∀ id, id ≠ ino → pc.held ≠ some id)
    (id : Nat) (d : Fin n) :
    Function.update s.lock ino holder id = some d ↔ (Function.update s.pc c pc d).held = some id := by
  by_cases hid : id = ino
  · subst hid
    rw [Function.update_self, hholder]
    by_cases hd : d = c
    · subst hd
      rw [Function.update_self]
      exact and_iff_right rfl
    · rw [Function.update_of_ne hd]
      exact iff_of_false (fun hc => hd hc.1) (hothers d hd)
  · rw [Function.update_of_ne hid, h.lock]
    by_cases hd : d = c
    · subst hd
      rw [Function.update_self]
      exact iff_of_false (hold id hid) (hnew id hid)
    · rw [Function.update_of_ne hd]

end Invariant

section Transitions

-- The steps, one rule for each thing that can happen.
inductive Moves (s : Sys n) : Event n → Sys n → Prop
  | start {c : Fin n} {op : Op} (hpc : s.pc c = .idle) :
      Moves s (.start c op) (s.setPc c (if op.locks then .acquiring op else .ready op))
  | acquire {c : Fin n} {op : Op} (hpc : s.pc c = .acquiring op) (hfree : s.lock op.ino = none) :
      Moves s (.acquire c) ((s.setPc c (.ready op)).setLock op.ino (some c))
  | hit {c : Fin n} {op : Op} {buf : Bytes} {next : Sys n} (hpc : s.pc c = .ready op)
      (hbuf : (s.client c).dataCache op.ino = some buf) (hgot : s.got c op buf = some next) : Moves s (.look c) next
  | miss {c : Fin n} {op : Op} (hpc : s.pc c = .ready op) (hnone : (s.client c).dataCache op.ino = none) :
      Moves s (.look c) ((s.setPc c (.getting op)).setRpc c (.requested (.get op.ino)))
  | serve {c : Fin n} {junk : Stack} {now : Times} {req : Request} {server : Server n} {call : Call n}
      (hrpc : s.rpc c = .requested req) (hrun : s.server.handle junk now c req = some (server, call)) :
      Moves s (.serve c junk now) ({ s with server := server }.setRpc c call)
  | update {c : Fin n} {job : Job n} (hrpc : s.rpc c = .updating job) (hdelivered : job.delivered = false) :
      Moves s (.update c) ((s.setClient job.target ((s.client job.target).updateHandler job.id job.attr job.data)).setRpc
        c (.updating { job with delivered := true }))
  | ack {c : Fin n} {junk : Stack} {job : Job n} {server : Server n} {call : Call n} (hrpc : s.rpc c = .updating job)
      (hdelivered : job.delivered = true)
      (hrun : s.server.broadcast junk c job.register job.reply job.id job.rest job.todo = some (server, call)) :
      Moves s (.ack c junk) ({ s with server := server }.setRpc c call)
  | data {c : Fin n} {op : Op} {buf : Bytes} {next : Sys n} (hrpc : s.rpc c = .replied (.data buf))
      (hpc : s.pc c = .getting op) (hgot : (s.setData c op.ino buf).got c op buf = some next) : Moves s (.reply c) next
  | answer {c : Fin n} {op : Op} {reply : Reply} {result : Reply → Result} (hrpc : s.rpc c = .replied reply)
      (hpc : s.pc c = .calling op result) :
      Moves s (.reply c) ((s.setPc c (.releasing op (result reply))).setRpc c .none)
  | finish {c : Fin n} {op : Op} {result : Result} (hpc : s.pc c = .releasing op result) :
      Moves s (.finish c) { (if op.locks then s.setLock op.ino none else s).setPc c .idle with
        log := s.log ++ [(c, op, result)] }

theorem moves_of_step {event : Event n} (h : Step s event s') : Moves s event s' := by
  unfold Step step at h
  split at h
  · -- start
    split at h
    · next hpc =>
        cases h
        exact .start hpc
    · cases h
  · -- acquire
    split at h
    · next hpc =>
        split at h
        · next hfree =>
            cases h
            exact .acquire hpc hfree
        · cases h
    · cases h
  · -- look
    split at h
    · next hpc =>
        split at h
        · next hbuf => exact .hit hpc hbuf h
        · next hnone =>
            cases h
            exact .miss hpc hnone
    · cases h
  · -- serve
    split at h
    · next hrpc =>
        obtain ⟨⟨server, call⟩, hrun, rfl⟩ := Option.map_eq_some_iff.mp h
        exact .serve hrpc hrun
    · cases h
  · -- update
    split at h
    · next hrpc =>
        split at h
        · cases h
        · next hdelivered =>
            cases h
            exact .update hrpc (eq_false_of_ne_true hdelivered)
    · cases h
  · -- ack
    split at h
    · next hrpc =>
        split at h
        · next hdelivered =>
            obtain ⟨⟨server, call⟩, hrun, rfl⟩ := Option.map_eq_some_iff.mp h
            exact .ack hrpc hdelivered hrun
        · cases h
    · cases h
  · -- reply
    split at h
    · next hrpc hpc => exact .data hrpc hpc h
    · next hrpc hpc =>
        cases h
        exact .answer hrpc hpc
    · cases h
  · -- finish
    split at h
    · next hpc =>
        cases h
        have hlog : ∀ op : Op, (if op.locks then s.setLock op.ino none else s).log = s.log := by
          intro op
          split <;> rfl
        rw [hlog]
        exact .finish hpc
    · cases h

-- ec->get has returned: the operation ends, or makes its call.
theorem got_cases {op : Op} {buf : Bytes} (h : s.got c op buf = some s') :
    (∃ result, op.next buf = some (.done result) ∧ s' = (s.setPc c (.releasing op result)).setRpc c .none) ∨
    ∃ req result, op.next buf = some (.call req result) ∧
      s' = (s.setPc c (.calling op result)).setRpc c (.requested req) := by
  rw [Sys.got, Option.map_eq_some_iff] at h
  obtain ⟨next, hnext, rfl⟩ := h
  cases next with
  | done result => exact .inl ⟨result, hnext, rfl⟩
  | call req result => exact .inr ⟨req, result, hnext, rfl⟩

-- Operations without a lock make no call after the get.
theorem locks_of_call {op : Op} {buf : Bytes} {req : Request} {result : Reply → Result}
    (h : op.next buf = some (.call req result)) : op.locks = true := by
  cases op with
  | lookup parent name =>
      rw [Op.next, Option.map_eq_some_iff] at h
      obtain ⟨found, -, hcall⟩ := h
      cases hcall
  | readdir dir =>
      rw [Op.next, Option.map_eq_some_iff] at h
      obtain ⟨entries, -, hcall⟩ := h
      cases hcall
  | file ino op => rfl
  | create parent name => rfl
  | mkdir parent name => rfl
  | symlink parent name link => rfl

def Pc.op : Pc → Option Op
  | .idle => none
  | .acquiring op => some op
  | .ready op => some op
  | .getting op => some op
  | .calling op _ => some op
  | .releasing op _ => some op

-- An operation under way has been started.
theorem op_of_moves {event : Event n} (h : Moves s event s') {d : Fin n} {op : Op} (hop : (s'.pc d).op = some op) :
    (s.pc d).op = some op ∨ event = .start d op := by
  -- the thread that moves keeps its operation
  have hkeep : ∀ (c : Fin n) (pc : Pc), (∀ op, pc.op = some op → (s.pc c).op = some op) →
      (Function.update s.pc c pc d).op = some op → (s.pc d).op = some op := by
    intro c pc hpc hd
    by_cases hc : d = c
    · subst hc
      rw [Function.update_self] at hd
      exact hpc op hd
    · rwa [Function.update_of_ne hc] at hd
  cases h with
  | @start c op' hpc =>
      by_cases hc : d = c
      · subst hc
        right
        have hstart : (if op'.locks then Pc.acquiring op' else .ready op').op = some op' := by split <;> rfl
        simp only [Sys.setPc, Function.update_self, hstart, Option.some.injEq] at hop
        rw [hop]
      · left
        simpa only [Sys.setPc, Function.update_of_ne hc] using hop
  | acquire hpc => exact .inl (hkeep _ _ (fun _ h => hpc ▸ h) hop)
  | hit hpc hbuf hgot =>
      rcases got_cases hgot with ⟨result, -, rfl⟩ | ⟨req, result, -, rfl⟩ <;>
        exact .inl (hkeep _ _ (fun _ h => hpc ▸ h) hop)
  | miss hpc => exact .inl (hkeep _ _ (fun _ h => hpc ▸ h) hop)
  | serve => exact .inl hop
  | update => exact .inl hop
  | ack => exact .inl hop
  | data hrpc hpc hgot =>
      rcases got_cases hgot with ⟨result, -, rfl⟩ | ⟨req, result, -, rfl⟩ <;>
        exact .inl (hkeep _ _ (fun _ h => hpc ▸ h) hop)
  | answer hrpc hpc => exact .inl (hkeep _ _ (fun _ h => hpc ▸ h) hop)
  | @finish c _ _ hpc =>
      refine .inl (hkeep c .idle (fun _ h => nomatch h) ?_)
      split at hop <;> exact hop

end Transitions

end CseLabs.Yfs
