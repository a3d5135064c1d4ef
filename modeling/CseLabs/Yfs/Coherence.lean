import CseLabs.Yfs.Threads

namespace CseLabs.Yfs

open InodeManager (Bytes Stack Times T_DIR T_FILE)
open Extent

variable {n : Nat} {s s' : Sys n} {c : Fin n}

section Steps

-- One cached copy has been set.
theorem setClient_cases {client : Client} {id j : Nat} {buf x : Bytes} {d : Fin n}
    (hclient : client.dataCache = Function.update (s.client c).dataCache id (some buf))
    (hx : ((s.setClient c client).client d).dataCache j = some x) :
    d = c ∧ j = id ∧ x = buf ∨ ¬ (d = c ∧ j = id) ∧ (s.client d).dataCache j = some x := by
  simp only [Sys.setClient] at hx
  by_cases hd : d = c
  · subst hd
    rw [Function.update_self, hclient] at hx
    by_cases hj : j = id
    · subst hj
      rw [Function.update_self] at hx
      cases hx
      exact .inl ⟨rfl, rfl, rfl⟩
    · rw [Function.update_of_ne hj] at hx
      exact .inr ⟨fun hc => hj hc.2, hx⟩
  · rw [Function.update_of_ne hd] at hx
    exact .inr ⟨fun hc => hd hc.1, hx⟩

-- It is set to the server's content, or to one that is about to be replaced.
theorem Inv.setClient (h : Inv s) {client : Client} {id : Nat} {buf : Bytes}
    (hclient : client.dataCache = Function.update (s.client c).dataCache id (some buf))
    (hreg : s.server.clients c id = true) (hlive : s.server.im.Live id)
    (hbuf : Readable s.server.im id → buf = s.server.dataCache id ∨ s.Pending c id) :
    Inv (s.setClient c client) := by
  refine ⟨h.stored, h.thread, h.lock, fun d j x hx => ?_, fun d j x hreadable hx => ?_⟩
  · rcases setClient_cases hclient hx with ⟨rfl, rfl, rfl⟩ | ⟨-, hold⟩
    · exact ⟨hreg, hlive⟩
    · exact h.cached d j x hold
  · rcases setClient_cases hclient hx with ⟨rfl, rfl, rfl⟩ | ⟨-, hold⟩
    · exact hbuf hreadable
    · exact h.coherent d j x hreadable hold

-- ec->get has returned what the server has.
theorem Inv.got (h : Inv s) {op : Op} {buf : Bytes} (hgot : s.got c op buf = some s') (hfits : op.Fits s.server.im)
    (hheld : (s.pc c).held = if op.locks then some op.ino else none) (hcall : ∀ job, s.rpc c ≠ .updating job)
    (hbuf : op.locks = true → buf = s.server.dataCache op.ino) : Inv s' := by
  rcases got_cases hgot with ⟨result, -, rfl⟩ | ⟨req, result, hnext, rfl⟩
  · exact h.move (.releasing hfits) hheld.symm hcall rfl rfl rfl rfl rfl
  · have hlocks := locks_of_call hnext
    rw [hbuf hlocks] at hnext
    exact h.move (.requesting hfits hlocks hnext) hheld.symm hcall rfl rfl rfl rfl rfl

theorem Inv.acquire (h : Inv s) {op : Op} (hpc : s.pc c = .acquiring op) (hfree : s.lock op.ino = none) :
    Inv ((s.setPc c (.ready op)).setLock op.ino (some c)) := by
  obtain ⟨hrpc, hfits, hlocks⟩ := (hpc ▸ h.thread c).of_acquiring
  have hsame : s.rpc = Function.update s.rpc c .none := by rw [← hrpc, Function.update_eq_self]
  have hheld : (Pc.ready op).held = some op.ino := if_pos hlocks
  refine ⟨h.stored, h.thread_move rfl hsame (.refl _ nothing) (fun _ hf => hf.elim) (.ready hfits),
    h.lock_change ?_ ?_ ?_ ?_, h.cached, fun d id buf hreadable hbuf => ?_⟩
  · intro d _ hd
    rw [← h.lock, hfree] at hd
    cases hd
  · intro d
    rw [hheld, Option.some.injEq, and_iff_left rfl]
    exact eq_comm
  · intro id _ hid
    rw [hpc] at hid
    cases hid
  · intro id hid hother
    rw [hheld] at hother
    exact hid (Option.some.inj hother).symm
  · refine (h.coherent d id buf hreadable hbuf).imp_right ?_
    rintro ⟨holder, hholder, hawaits⟩
    have hid : id ≠ op.ino := by
      rintro rfl
      rw [hfree] at hholder
      cases hholder
    exact ⟨holder, (Function.update_of_ne hid ..).trans hholder, hawaits⟩

theorem Inv.finish (h : Inv s) {op : Op} {result : Result} {log : List (Fin n × Op × Result)}
    (hpc : s.pc c = .releasing op result) :
    Inv { (if op.locks then s.setLock op.ino none else s).setPc c .idle with log := log } := by
  obtain ⟨hrpc, hfits⟩ := (hpc ▸ h.thread c).of_releasing
  have hsame : s.rpc = Function.update s.rpc c .none := by rw [← hrpc, Function.update_eq_self]
  have hheld : (s.pc c).held = if op.locks then some op.ino else none := by rw [hpc]; rfl
  have hcall : ∀ job, s.rpc c ≠ .updating job := fun _ hjob => nomatch hrpc.symm.trans hjob
  by_cases hlocks : op.locks
  · rw [if_pos hlocks] at hheld ⊢
    refine ⟨h.stored, h.thread_move rfl hsame (.refl _ nothing) (fun _ hf => hf.elim) .idle,
      h.lock_change ?_ ?_ ?_ ?_, h.cached, fun d id buf hreadable hbuf => ?_⟩
    · exact fun d hd hother => hd (h.held_unique hother hheld)
    · exact fun d => iff_of_false (by simp) fun hd => by cases hd.2
    · intro id hid hother
      rw [hheld] at hother
      exact hid (Option.some.inj hother).symm
    · exact fun id _ hidle => by cases hidle
    · refine (h.coherent d id buf hreadable hbuf).imp_right ?_
      rintro ⟨holder, hholder, hawaits⟩
      have hid : id ≠ op.ino := by
        rintro rfl
        rw [← h.lock, hholder] at hheld
        cases hheld
        exact not_awaits_of_ne hcall hawaits
      exact ⟨holder, (Function.update_of_ne hid ..).trans hholder, hawaits⟩
  · rw [if_neg hlocks] at hheld ⊢
    exact h.move .idle hheld.symm hcall rfl rfl rfl rfl hsame

-- The server has gone on with the request of c, and no copy of a file has changed.
theorem Inv.serve_nothing (h : Inv s) {server : Server n} {call : Call n} (hgrows : Grows s.server server nothing)
    (hstored : Stored server.im server.dataCache) (hthread : ThreadOk server c (s.pc c) call)
    (hawaits : ∀ d id, s.server.clients d id = true → Awaits (s.rpc c) id d → Awaits call id d) :
    Inv ({ s with server := server }.setRpc c call) where
  stored := hstored
  thread := h.thread_move (Function.update_eq_self c s.pc).symm rfl hgrows (fun _ hf => hf.elim) hthread
  lock := h.lock
  cached d id buf hbuf := ⟨hgrows.clients d id (h.cached d id buf hbuf).1, hgrows.keeps.live (h.cached d id buf hbuf).2⟩
  coherent d id buf hreadable hbuf := by
    obtain ⟨hreg, hlive⟩ := h.cached d id buf hbuf
    have hold : Readable s.server.im id := ⟨hlive, hgrows.keeps id hlive ▸ hreadable.2⟩
    refine (h.coherent d id buf hold hbuf).imp (fun heq => ?_) fun hp => ?_
    · exact heq.trans (hgrows.data id hold fun hf => hf).symm
    · exact hp.move rfl rfl fun _ => hawaits d id hreg

-- The server has changed the file whose lock c holds.
theorem Inv.serve_change (h : Inv s) {server : Server n} {call : Call n} {id : Nat} {buf : Bytes}
    (hhandled : Handled s.server server call id buf) (hheld : (s.pc c).held = some id)
    (hthread : ThreadOk server c (s.pc c) call) (hcall : ∀ job, s.rpc c ≠ .updating job) :
    Inv ({ s with server := server }.setRpc c call) where
  stored := hhandled.sent.stored
  thread := h.thread_move (Function.update_eq_self c s.pc).symm rfl hhandled.grows (fun _ hid => hid ▸ hheld) hthread
  lock := h.lock
  cached d j x hx :=
    ⟨hhandled.grows.clients d j (h.cached d j x hx).1, hhandled.grows.keeps.live (h.cached d j x hx).2⟩
  coherent d j x hreadable hx := by
    obtain ⟨hreg, hlive⟩ := h.cached d j x hx
    by_cases hj : j = id
    · subst hj
      refine .inr ⟨c, (h.lock j c).mpr hheld, ?_⟩
      show Awaits (Function.update s.rpc c call c) j d
      rw [Function.update_self]
      exact hhandled.awaits d hreg
    · have hold : Readable s.server.im j := ⟨hlive, hhandled.grows.keeps j hlive ▸ hreadable.2⟩
      refine (h.coherent d j x hold hx).imp (fun heq => ?_) fun hp => ?_
      · exact heq.trans (hhandled.grows.data j hold hj).symm
      · exact hp.move rfl rfl fun _ hawaits => absurd hawaits (not_awaits_of_ne hcall)

-- What a request that changes a file makes of the content.
def Written (content buf : Bytes) : Request → Prop
  | .get _ => False
  | .put _ new => buf = new
  | .create _ _ name => ∃ id < InodeManager.INODE_NUM, buf = content ++ Directory.entry name id
  | .createSymLink _ name _ => ∃ id < InodeManager.INODE_NUM, buf = content ++ Directory.entry name id

-- create, mkdir and symlink go on only when the name is not there.
theorem makeEntry_call {buf name : Bytes} {req req' : Request} {result : Reply → Result}
    (h : makeEntry buf name req = some (.call req' result)) : req' = req ∧ Directory.lookup buf name = some none := by
  rw [makeEntry, Option.map_eq_some_iff] at h
  obtain ⟨found, hfound, hnext⟩ := h
  cases found with
  | none =>
      cases hnext
      exact ⟨rfl, hfound⟩
  | some ino => cases hnext

theorem handled_of_call {server : Server n} {call : Call n} {junk : Stack} {now : Times} {op : Op} {req : Request}
    {result : Reply → Result} (hstored : Stored s.server.im s.server.dataCache) (hfits : op.Fits s.server.im)
    (hnext : op.next (s.server.dataCache op.ino) = some (.call req result)) (hsound : Sound junk now s.server req)
    (hrun : s.server.handle junk now c req = some (server, call)) :
    ∃ buf, Written (s.server.dataCache op.ino) buf req ∧ Handled s.server server call op.ino buf := by
  have hreadable := hfits.readable
  have hput : ∀ new, req = .put op.ino new →
      ∃ buf, Written (s.server.dataCache op.ino) buf req ∧ Handled s.server server call op.ino buf := by
    rintro new rfl
    exact ⟨new, rfl, put_spec hstored hreadable hsound hrun⟩
  have hcreate : ∀ type name, type.toUInt16 ≠ 0 → req = .create type op.ino name →
      ∃ buf, Written (s.server.dataCache op.ino) buf req ∧ Handled s.server server call op.ino buf := by
    rintro type name htype rfl
    obtain ⟨id, hid, hhandled⟩ := create_spec hstored hreadable htype hsound hrun
    exact ⟨_, ⟨id, hid, rfl⟩, hhandled⟩
  cases op with
  | file ino op =>
      cases op with
      | read size off => cases hnext
      | write off data =>
          cases hnext
          exact hput _ rfl
      | setattr size =>
          cases hnext
          exact hput _ rfl
  | create parent name => exact hcreate T_FILE name (by decide) (makeEntry_call hnext).1
  | mkdir parent name => exact hcreate T_DIR name (by decide) (makeEntry_call hnext).1
  | symlink parent name link =>
      obtain ⟨rfl, -⟩ := makeEntry_call hnext
      obtain ⟨id, hid, hhandled⟩ := createSymLink_spec hstored hreadable hsound hrun
      exact ⟨_, ⟨id, hid, rfl⟩, hhandled⟩
  | lookup parent name => exact absurd (locks_of_call hnext) (by simp [Op.locks])
  | readdir dir => exact absurd (locks_of_call hnext) (by simp [Op.locks])

theorem ThreadOk.of_sent {server : Server n} {call : Call n} {op : Op} {result : Reply → Result} (h : Sent server call)
    (hfits : op.Fits server.im) (hlocks : op.locks = true) : ThreadOk server c (.calling op result) call := by
  rcases h.cases with ⟨job, rfl⟩ | ⟨reply, rfl⟩
  · obtain ⟨hjob, hdata⟩ := h.job job rfl
    exact .updating hfits hlocks hjob fun _ _ => hdata
  · exact .replied hfits hlocks

theorem Inv.serve (h : Inv s) {server : Server n} {call : Call n} {junk : Stack} {now : Times} {req : Request}
    (hrpc : s.rpc c = .requested req) (hrun : s.server.handle junk now c req = some (server, call))
    (hsound : Sound junk now s.server req) : Inv ({ s with server := server }.setRpc c call) := by
  have hcall : ∀ job, s.rpc c ≠ .updating job := fun _ hjob => nomatch hrpc.symm.trans hjob
  rcases (hrpc ▸ h.thread c).of_requested with ⟨op, hpc, rfl, hfits⟩ | ⟨op, result, hpc, hfits, hlocks, hnext⟩
  · cases hrun
    have hgrows := grows_insert s.server c op.ino
    refine h.serve_nothing hgrows h.stored ?_ fun d id _ hawaits => absurd hawaits (not_awaits_of_ne hcall)
    rw [hpc]
    exact .answered (hfits.keep hgrows.keeps) (insert_self ..) fun _ => rfl
  · obtain ⟨buf, -, hhandled⟩ := handled_of_call h.stored hfits hnext hsound hrun
    refine h.serve_change hhandled (by rw [hpc]; exact if_pos hlocks) ?_ hcall
    rw [hpc]
    exact .of_sent hhandled.sent (hfits.keep hhandled.grows.keeps) hlocks

theorem Inv.ack (h : Inv s) {server : Server n} {call : Call n} {junk : Stack} {job : Job n}
    (hrpc : s.rpc c = .updating job) (hdelivered : job.delivered = true)
    (hrun : s.server.broadcast junk c job.register job.reply job.id job.rest job.todo = some (server, call)) :
    Inv ({ s with server := server }.setRpc c call) := by
  obtain ⟨op, result, hpc, hfits, hlocks, hjob, -⟩ := (hrpc ▸ h.thread c).of_updating
  obtain ⟨hsent, hgrows, hawaits⟩ := broadcast_spec h.stored hjob.live hrun
  refine h.serve_nothing hgrows hsent.stored ?_ fun d id hreg hold => ?_
  · rw [hpc]
    exact .of_sent hsent (hfits.keep hgrows.keeps) hlocks
  · -- the call that has returned is not awaited any more
    obtain ⟨job', hjob', rfl, htarget | hrest⟩ := hold
    · rw [hrpc] at hjob'
      cases hjob'
      exact absurd htarget.2 (ne_false_of_eq_true hdelivered)
    · rw [hrpc] at hjob'
      cases hjob'
      exact hawaits d hrest hreg

-- An update_handler call arrives.
theorem Inv.update (h : Inv s) {job : Job n} (hrpc : s.rpc c = .updating job) (hdelivered : job.delivered = false)
    (hfresh : s.lock job.id ≠ some c → Readable s.server.im job.id →
      job.data = s.server.dataCache job.id ∨ s.Pending job.target job.id) :
    Inv ((s.setClient job.target ((s.client job.target).updateHandler job.id job.attr job.data)).setRpc c
      (.updating { job with delivered := true })) := by
  obtain ⟨op, result, hpc, hfits, hlocks, hjob, hdata⟩ := (hrpc ▸ h.thread c).of_updating
  have hheld : (s.pc c).held = some op.ino := by rw [hpc]; exact if_pos hlocks
  have hclient : ((s.client job.target).updateHandler job.id job.attr job.data).dataCache =
      Function.update (s.client job.target).dataCache job.id (some job.data) := rfl
  refine ⟨h.stored, ?_, h.lock, fun d j x hx => ?_, fun d j x hreadable hx => ?_⟩
  · refine h.thread_move (Function.update_eq_self c s.pc).symm rfl (.refl _ nothing) (fun _ hf => hf.elim) ?_
    rw [hpc]
    exact .updating hfits hlocks ⟨hjob.live, hjob.target⟩ fun _ hfalse => by cases hfalse
  · rcases setClient_cases hclient hx with ⟨rfl, rfl, rfl⟩ | ⟨-, hold⟩
    · exact ⟨hjob.target, hjob.live _ List.mem_cons_self⟩
    · exact h.cached d j x hold
  · rcases setClient_cases hclient hx with ⟨rfl, rfl, rfl⟩ | ⟨hother, hold⟩
    · by_cases hlock : s.lock job.id = some c
      · rw [h.lock, hheld] at hlock
        exact .inl (hdata (Option.some.inj hlock).symm hdelivered)
      · exact (hfresh hlock hreadable).imp_right fun hp => hp.move rfl rfl fun hc => absurd hc hlock
    · refine (h.coherent d j x hreadable hold).imp_right fun hp => hp.move rfl rfl fun _ hawaits => ?_
      -- the clients further on in the loop are still to be told
      obtain ⟨job', hjob', rfl, ⟨rfl, -⟩ | hrest⟩ := hawaits
      · rw [hrpc] at hjob'
        cases hjob'
        exact absurd ⟨rfl, rfl⟩ hother
      · rw [hrpc] at hjob'
        cases hjob'
        exact ⟨_, rfl, rfl, .inr hrest⟩

-- A get has been answered.
theorem Inv.data (h : Inv s) {op : Op} {buf : Bytes} (hrpc : s.rpc c = .replied (.data buf)) (hpc : s.pc c = .getting op)
    (hfresh : op.locks = false → buf = s.server.dataCache op.ino ∨ s.Pending c op.ino)
    (hgot : (s.setData c op.ino buf).got c op buf = some s') : Inv s' := by
  have hthread := h.thread c
  rw [hpc, hrpc] at hthread
  cases hthread with
  | answered hfits hreg hdata =>
      have hbuf : buf = s.server.dataCache op.ino ∨ s.Pending c op.ino := by
        cases hlocks : op.locks with
        | true => exact .inl (hdata hlocks)
        | false => exact hfresh hlocks
      have hset : Inv (s.setData c op.ino buf) := h.setClient rfl hreg hfits.1 fun _ => hbuf
      refine hset.got hgot hfits ?_ ?_ hdata
      · show (s.pc c).held = _
        rw [hpc]
        rfl
      · exact fun _ hjob => nomatch hrpc.symm.trans hjob

-- A thread that looks at its own copy with the lock held finds the server's content.
theorem Inv.cached_held (h : Inv s) {id : Nat} {buf : Bytes} (hheld : (s.pc c).held = some id)
    (hcall : ∀ job, s.rpc c ≠ .updating job) (hreadable : Readable s.server.im id)
    (hbuf : (s.client c).dataCache id = some buf) : buf = s.server.dataCache id := by
  refine (h.coherent c id buf hreadable hbuf).resolve_right ?_
  rintro ⟨holder, hholder, hawaits⟩
  rw [h.lock] at hholder
  obtain rfl := h.held_unique hheld hholder
  exact not_awaits_of_ne hcall hawaits

theorem Inv.start (h : Inv s) {op : Op} (hfits : op.Fits s.server.im) (hpc : s.pc c = .idle) :
    Inv (s.setPc c (if op.locks then .acquiring op else .ready op)) := by
  have hrpc := (hpc ▸ h.thread c).of_idle
  have hsame : s.rpc = Function.update s.rpc c .none := by rw [← hrpc, Function.update_eq_self]
  have hcall : ∀ job, s.rpc c ≠ .updating job := fun _ hjob => nomatch hrpc.symm.trans hjob
  by_cases hlocks : op.locks
  · rw [if_pos hlocks]
    exact h.move (.acquiring hfits hlocks) (by rw [hpc]; rfl) hcall rfl rfl rfl rfl hsame
  · rw [if_neg hlocks]
    exact h.move (.ready hfits) (by rw [hpc]; exact if_neg hlocks) hcall rfl rfl rfl rfl hsame

theorem Inv.step {event : Event n} (h : Inv s) (hlegal : ∀ c op, event = .start c op → op.Fits s.server.im)
    (hfresh : Fresh s event) (hwritable : Writable s event) (hmoves : Moves s event s') : Inv s' := by
  cases hmoves with
  | start hpc => exact h.start (hlegal _ _ rfl) hpc
  | acquire hpc hfree => exact h.acquire hpc hfree
  | hit hpc hbuf hgot =>
      obtain ⟨hrpc, hfits⟩ := (hpc ▸ h.thread _).of_ready
      have hcall : ∀ job, s.rpc _ ≠ .updating job := fun _ hjob => nomatch hrpc.symm.trans hjob
      refine h.got hgot hfits (by rw [hpc]; rfl) hcall fun hlocks => ?_
      exact h.cached_held (by rw [hpc]; exact if_pos hlocks) hcall hfits.readable hbuf
  | miss hpc hnone =>
      obtain ⟨hrpc, hfits⟩ := (hpc ▸ h.thread _).of_ready
      exact h.move (.asking hfits) (by rw [hpc]; rfl) (fun _ hjob => nomatch hrpc.symm.trans hjob)
        rfl rfl rfl rfl rfl
  | serve hrpc hrun => exact h.serve hrpc hrun (hwritable _ hrpc)
  | update hrpc hdelivered => exact h.update hrpc hdelivered (hfresh _ hrpc)
  | ack hrpc hdelivered hrun => exact h.ack hrpc hdelivered hrun
  | data hrpc hpc hgot => exact h.data hrpc hpc (fun hlocks => hfresh _ _ hpc hlocks hrpc) hgot
  | @answer c op reply result hrpc hpc =>
      have hthread := h.thread c
      rw [hpc, hrpc] at hthread
      cases hthread with
      | replied hfits hlocks =>
          exact h.move (.releasing hfits) (by rw [hpc]; rfl) (fun _ hjob => nomatch hrpc.symm.trans hjob)
            rfl rfl rfl rfl rfl
  | finish hpc => exact h.finish hpc

end Steps

end CseLabs.Yfs
