import CseLabs.Yfs.Client

namespace CseLabs.Yfs

open InodeManager (Bytes Fs INODE_NUM)
open Directory (entry)
open Extent (Server Call mask)
open ExtentService (System Env diskManager)

section Views

variable {n : Nat}

-- The server and its clients as they are between two requests.
def Sys.view (s : Sys n) : System Fs n where
  server := ⟨s.server.im, s.server.clients, s.server.dataCache, s.server.attrCache⟩
  client := s.client

def Sys.place (s : Sys n) (sys : System Fs n) : Sys n :=
  { s with
      server := ⟨sys.server.im, sys.server.clients, sys.server.dataCache, sys.server.attrCache⟩
      client := sys.client }

-- Whose request the event belongs to.
def Event.client : Event n → Fin n
  | .start c _ | .acquire c | .look c | .serve c _ _ | .update c | .ack c _ | .reply c | .finish c => c

-- A run in which only the requests of c move.
def Alone (c : Fin n) (s s' : Sys n) : Prop :=
  Comes (Guarded (fun _ event => event.client = c) Step) (fun last => last = s') s

variable {c : Fin n} {s mid s' : Sys n}

theorem Alone.refl (c : Fin n) (s : Sys n) : Alone c s s := Comes.now rfl

theorem Alone.trans (h : Alone c s mid) (h' : Alone c mid s') : Alone c s s' :=
  h.then fun _ hlast => hlast ▸ h'

theorem Alone.step (event : Event n) (hclient : event.client = c) (hstep : Yfs.step s event = some mid)
    (h : Alone c mid s') : Alone c s s' := by
  have hmove : Guarded (fun _ event => event.client = c) Step s event mid := ⟨hclient, hstep⟩
  exact Comes.later hmove h

end Views

section Handlers

variable {n : Nat} {c : Fin n} {s s' : Sys n} {env : Env} {register id : Nat} {reply : Extent.Reply}

-- From what the handler does next its client gets to s'.
def Leads (c : Fin n) (s : Sys n) (next : Option (Server n × Call n)) (s' : Sys n) : Prop :=
  ∃ server call, next = some (server, call) ∧ Alone c ({ s with server := server }.setRpc c call) s'

theorem leads_callback {d : Fin n} {rest : List (Fin n)} {todo : List Nat} (hreg : s.server.clients d id = true)
    (h : Leads c (s.place (s.view.callback id false d))
      (s.server.broadcast env.junk c register reply id rest todo) s') :
    Leads c s (s.server.broadcast env.junk c register reply id (d :: rest) todo) s' := by
  obtain ⟨server, call, hnext, halone⟩ := h
  have hfirst : s.server.broadcast env.junk c register reply id (d :: rest) todo = some (s.server, .updating
      { id := id, target := d, attr := s.server.attrCache id, data := s.server.dataCache id, delivered := false
        rest := rest, todo := todo, register := register, reply := reply }) := by
    unfold Server.broadcast
    rw [List.dropWhile_cons_of_neg (by simp [hreg])]
  refine ⟨_, _, hfirst, ?_⟩
  refine Alone.step (.update c) rfl (by simp [step, Sys.setRpc]; rfl) ?_
  refine Alone.step (.ack c env.junk) rfl (by simp [step, Sys.setRpc, Sys.setClient, hnext]; rfl) ?_
  simpa [Sys.setRpc, Sys.setClient, Sys.place, System.callback, Sys.view] using halone

-- The loop of broadcast over the rest of the clients.
theorem leads_broadcast {rest : List (Fin n)} {todo : List Nat}
    (h : Leads c (s.place (rest.foldl
        (fun sys d => if sys.server.clients d id then sys.callback id false d else sys) s.view))
      (s.server.broadcast env.junk c register reply id [] todo) s') :
    Leads c s (s.server.broadcast env.junk c register reply id rest todo) s' := by
  induction rest generalizing s with
  | nil => exact h
  | cons d rest ih =>
      rw [List.foldl_cons] at h
      by_cases hreg : s.server.clients d id = true
      · rw [if_pos (show s.view.server.clients d id = true from hreg)] at h
        exact leads_callback hreg (ih h)
      · rw [if_neg (show ¬ s.view.server.clients d id = true from hreg)] at h
        have hskip : s.server.broadcast env.junk c register reply id (d :: rest) todo =
            s.server.broadcast env.junk c register reply id rest todo := by
          unfold Server.broadcast
          rw [List.dropWhile_cons_of_pos (by simp [hreg])]
        rw [hskip]
        exact ih h

theorem view_updateCache {sys : System Fs n} (h : s.view.updateCache diskManager env id = some sys) :
    ∃ server, s.server.updateCache env.junk id = some server ∧
      sys = { s with server := server }.view.broadcast (mask id) false := by
  simp only [System.updateCache, Option.bind_eq_bind, Option.bind_eq_some_iff] at h
  obtain ⟨buf, hread, attr, hattr, heq⟩ := h
  obtain ⟨⟨buf, im⟩, hresult, rfl⟩ := Option.map_eq_some_iff.mp hread
  obtain ⟨⟨attr, im'⟩, hresult', rfl⟩ := Option.map_eq_some_iff.mp hattr
  have hrun := ExtentService.result_eq_some hresult
  have hrun' := ExtentService.result_eq_some hresult'
  obtain rfl : im = s.server.im := InodeManager.readFile_onlyReads _ _ _ _ _ hrun
  obtain rfl : im' = s.server.im := InodeManager.getattr_onlyReads _ _ _ _ _ hrun'
  have hstored := Extent.store_ok s.server hrun
  have hstored' := Extent.store_ok s.server hrun'
  cases heq
  refine ⟨{ s.server with
    dataCache := Function.update s.server.dataCache (mask id) (buf.getD [])
    attrCache := Function.update s.server.attrCache (mask id) attr }, ?_, rfl⟩
  simp only [Server.updateCache, hstored, hstored', Option.bind_eq_bind, Option.bind_some]
  rfl

-- The update_cache calls that are left, and the end of the handler.
theorem leads_updates {todo : List Nat} {sys : System Fs n}
    (h : todo.foldlM (fun sys id => sys.updateCache diskManager env id) s.view = some sys) :
    Leads c s (s.server.broadcast env.junk c register reply id [] todo)
      ((s.place (sys.insert c register)).setRpc c (.replied reply)) := by
  induction todo generalizing s id with
  | nil =>
      cases h
      exact ⟨_, _, rfl, .refl c _⟩
  | cons next todo ih =>
      simp only [List.foldlM_cons, Option.bind_eq_bind, Option.bind_eq_some_iff] at h
      obtain ⟨mid, hmid, hrest⟩ := h
      obtain ⟨server, hupdate, rfl⟩ := view_updateCache hmid
      have hnext : s.server.broadcast env.junk c register reply id [] (next :: todo) =
          server.broadcast env.junk c register reply (mask next) (List.finRange n) todo := by
        rw [Server.broadcast]
        simp only [List.dropWhile_nil, hupdate, Option.bind_eq_bind, Option.bind_some]
      rw [hnext]
      let before : Sys n := { s with server := server }
      have hserver : (before.place (before.view.broadcast (mask next) false)).server = before.server := by
        rw [Sys.place, ExtentService.broadcast_eq]
        rfl
      have hlater : Leads c _ (Server.broadcast _ _ _ _ _ (mask next) [] todo) _ :=
        ih (s := before.place (before.view.broadcast (mask next) false)) hrest
      rw [hserver] at hlater
      exact leads_broadcast (s := before) hlater

theorem leads_updateAll {todo : List Nat} {sys : System Fs n}
    (h : (id :: todo).foldlM (fun sys id => sys.updateCache diskManager env id) s.view = some sys) :
    Leads c s (s.server.updateAll env.junk c register reply id todo)
      ((s.place (sys.insert c register)).setRpc c (.replied reply)) := by
  have hbroadcast : Leads c s (s.server.broadcast env.junk c register reply id [] (id :: todo)) _ := leads_updates h
  exact hbroadcast

theorem view_writeFile {buf : Bytes} {sys : System Fs n} (hbuf : buf.length < 2 ^ 31)
    (h : s.view.writeFile diskManager env id buf = some sys) :
    ∃ server, s.server.writeFile env.junk env.now id buf = some server ∧ sys = { s with server := server }.view ∧
      server.dataCache = s.server.dataCache := by
  simp only [System.writeFile, Option.bind_eq_bind, Option.bind_eq_some_iff] at h
  obtain ⟨im, hwrite, heq⟩ := h
  cases heq
  have hlength : (ExtentService.toInt buf.length).toNat = buf.length := by
    rw [ExtentService.toInt_of_lt hbuf, Int.toNat_natCast]
  change (if ExtentService.toInt buf.length < 0 then none else _) = some im at hwrite
  rw [if_neg (by rw [ExtentService.toInt_of_lt hbuf]; omega), hlength, List.take_length] at hwrite
  obtain ⟨⟨_, im⟩, hresult, rfl⟩ := Option.map_eq_some_iff.mp hwrite
  have hstored := Extent.store_ok s.server (ExtentService.result_eq_some hresult)
  exact ⟨{ s.server with im := im }, by rw [Server.writeFile, hstored]; rfl, rfl, rfl⟩

-- What is written to the disk has a length that fits an int.
def Small (dataCache : Nat → Bytes) : Extent.Request → Prop
  | .get _ => True
  | .put _ buf => buf.length < 2 ^ 31
  | .create _ parent name => ∀ id < INODE_NUM, (dataCache parent ++ entry name id).length < 2 ^ 31
  | .createSymLink parent name link =>
      link.length < 2 ^ 31 ∧ ∀ id < INODE_NUM, (dataCache parent ++ entry name id).length < 2 ^ 31

instance (dataCache : Nat → Bytes) : (req : Extent.Request) → Decidable (Small dataCache req)
  | .get _ => inferInstanceAs (Decidable True)
  | .put _ buf => inferInstanceAs (Decidable (buf.length < 2 ^ 31))
  | .create _ parent name =>
      inferInstanceAs (Decidable (∀ id < INODE_NUM, (dataCache parent ++ entry name id).length < 2 ^ 31))
  | .createSymLink parent name link => inferInstanceAs (Decidable
      (link.length < 2 ^ 31 ∧ ∀ id < INODE_NUM, (dataCache parent ++ entry name id).length < 2 ^ 31))

theorem view_alloc {type : UInt32} {im : Fs} (h : diskManager.allocInode type s.view.server.im = some (id, im)) :
    id < INODE_NUM ∧ s.server.store (InodeManager.allocInode type) = some (id, { s.server with im := im }) := by
  have halloc := ExtentService.result_eq_some h
  refine ⟨?_, Extent.store_ok s.server halloc⟩
  rcases InodeManager.allocInode_cases type s.server.im with ⟨k, -, hk, -, -, hrun⟩ | ⟨-, hrun⟩
  · rw [show InodeManager.allocInode type s.server.im = _ from halloc] at hrun
    cases hrun
    exact hk
  · rw [show InodeManager.allocInode type s.server.im = _ from halloc] at hrun
    cases hrun

theorem leads_link {parent : Nat} {name : Bytes} {sys : System Fs n} {new : Nat}
    (hsize : (s.server.dataCache parent ++ entry name new).length < 2 ^ 31)
    (h : s.view.link diskManager env c parent name new = some sys) :
    Leads c s (do
      let server ← s.server.writeFile env.junk env.now parent (s.server.dataCache parent ++ entry name new)
      server.updateAll env.junk c new (.id new) parent [new])
      ((s.place sys).setRpc c (.replied (.id new))) := by
  simp only [System.link, Option.bind_eq_bind, Option.bind_eq_some_iff] at h
  obtain ⟨written, hwrite, mid, hmid, last, hlast, heq⟩ := h
  cases heq
  obtain ⟨server, hserver, rfl, -⟩ := view_writeFile hsize hwrite
  rw [hserver]
  have hupdates : [parent, new].foldlM (fun sys id => sys.updateCache diskManager env id)
      { s with server := server }.view = some last := by
    simp only [List.foldlM_cons, List.foldlM_nil, hmid, hlast, Option.bind_eq_bind, Option.bind_some]
    rfl
  exact leads_updateAll (s := { s with server := server }) hupdates

-- A request that is handled with nothing in between.
theorem handle_leads {req : Extent.Request} {rep : ExtentService.Reply} {sys : System Fs n}
    (hsmall : Small s.server.dataCache req) (h : s.view.handle diskManager env c (request req) = some (rep, sys)) :
    Leads c s (s.server.handle env.junk env.now c req) ((s.place sys).setRpc c (.replied (Yfs.reply rep))) := by
  cases req with
  | get id =>
      cases h
      exact ⟨_, _, rfl, .refl c _⟩
  | put id buf =>
      simp only [request, System.handle, System.put, Option.bind_eq_bind, Option.bind_eq_some_iff] at h
      obtain ⟨sys, ⟨written, hwrite, mid, hmid, heq⟩, heq'⟩ := h
      cases heq
      cases heq'
      obtain ⟨server, hserver, rfl, -⟩ := view_writeFile hsmall hwrite
      rw [Server.handle, Server.put]
      simp only [hserver, Option.bind_eq_bind, Option.bind_some]
      have hupdates : [mask id].foldlM (fun sys id => sys.updateCache diskManager env id)
          { s with server := server }.view = some mid := by
        simp only [List.foldlM_cons, List.foldlM_nil, hmid, Option.bind_eq_bind, Option.bind_some]
        rfl
      exact leads_updateAll (s := { s with server := server }) hupdates
  | create type parent name =>
      simp only [request, System.handle, System.create, Option.bind_eq_bind, Option.bind_eq_some_iff] at h
      obtain ⟨⟨id, im⟩, halloc, h⟩ := h
      obtain ⟨hid, hstore⟩ := view_alloc halloc
      rw [if_neg hid.ne] at h
      obtain ⟨linked, hlink, heq⟩ := Option.bind_eq_some_iff.mp h
      cases heq
      rw [Server.handle, Server.create]
      simp only [hstore, Option.bind_eq_bind, Option.bind_some, if_neg hid.ne]
      exact leads_link (s := { s with server := { s.server with im := im } }) (hsmall id hid) hlink
  | createSymLink parent name link =>
      simp only [request, System.handle, System.createSymLink, Option.bind_eq_bind, Option.bind_eq_some_iff] at h
      obtain ⟨⟨id, im⟩, halloc, written, hwrite, linked, hlink, heq⟩ := h
      cases heq
      obtain ⟨hid, hstore⟩ := view_alloc halloc
      obtain ⟨server, hserver, rfl, hcache⟩ :=
        view_writeFile (s := { s with server := { s.server with im := im } }) hsmall.1 hwrite
      rw [Server.handle, Server.createSymLink]
      simp only [hstore, hserver, Option.bind_eq_bind, Option.bind_some]
      refine leads_link (s := { s with server := server }) ?_ hlink
      show (server.dataCache parent ++ entry name id).length < 2 ^ 31
      rw [hcache]
      exact hsmall.2 id hid

end Handlers

section Operations

variable {n : Nat} {c : Fin n} {s : Sys n} {env : Env} {op : Op} {sys : System Fs n}

-- The operation of c is at pc, and nothing else has changed.
def Sys.during (s : Sys n) (c : Fin n) (op : Op) (sys : System Fs n) (pc : Pc) (call : Call n) : Sys n :=
  { s.place sys with
      pc := Function.update s.pc c pc
      rpc := Function.update s.rpc c call
      lock := if op.locks then Function.update s.lock op.ino (some c) else s.lock }

@[simp] theorem during_pc (s : Sys n) (pc : Pc) (call : Call n) : (s.during c op sys pc call).pc c = pc :=
  Function.update_self ..

@[simp] theorem during_rpc (s : Sys n) (pc : Pc) (call : Call n) : (s.during c op sys pc call).rpc c = call :=
  Function.update_self ..

theorem during_setRpc (s : Sys n) (sys' : System Fs n) (pc : Pc) (call call' : Call n) :
    ((s.during c op sys pc call).place sys').setRpc c call' = s.during c op sys' pc call' := by
  simp [Sys.during, Sys.setRpc, Sys.place]

theorem alone_start (hpc : s.pc c = .idle) (hrpc : s.rpc c = .none) (hlock : s.lock op.ino = none) :
    Alone c s (s.during c op s.view (.ready op) .none) := by
  have hcall : Function.update s.rpc c .none = s.rpc := by rw [← hrpc, Function.update_eq_self]
  by_cases hlocks : op.locks = true
  · have hstart : step s (.start c op) = some (s.setPc c (.acquiring op)) := by simp [step, hpc, hlocks]
    have hacquire : step (s.setPc c (.acquiring op)) (.acquire c) =
        some (s.during c op s.view (.ready op) .none) := by
      simp [step, Sys.setPc, Sys.setLock, Sys.during, Sys.place, Sys.view, hlock, hcall, hlocks]
    exact .step _ rfl hstart (.step _ rfl hacquire (.refl c _))
  · have hstart : step s (.start c op) = some (s.during c op s.view (.ready op) .none) := by
      simp [step, Sys.setPc, Sys.during, Sys.place, Sys.view, hpc, hcall, hlocks]
    exact .step _ rfl hstart (.refl c _)

theorem during_got (s : Sys n) (pc : Pc) (call : Call n) (buf : Bytes) :
    (s.during c op sys pc call).got c op buf = (op.next buf).map fun
      | .done result => s.during c op sys (.releasing op result) .none
      | .call req result => s.during c op sys (.calling op result) (.requested req) := by
  rw [Sys.got]
  congr 1
  funext next
  cases next <;> simp [Sys.during, Sys.setPc, Sys.setRpc]

theorem alone_serve {pc : Pc} {req : Extent.Request} {rep : ExtentService.Reply} {sys' : System Fs n}
    (hsmall : Small sys.server.dataCache req) (h : sys.handle diskManager env c (request req) = some (rep, sys')) :
    Alone c (s.during c op sys pc (.requested req)) (s.during c op sys' pc (.replied (reply rep))) := by
  obtain ⟨server, call, hnext, halone⟩ := handle_leads (s := s.during c op sys pc (.requested req)) hsmall h
  rw [during_setRpc] at halone
  refine .step (.serve c env.junk env.now) rfl ?_ halone
  simp only [step, during_rpc, hnext, Option.map_some]

-- ec->get, from the cache or from the server
theorem alone_look (env : Env) {last : Sys n}
    (h : (s.during c op (s.view.clientGet c op.ino).2 (.ready op) .none).got c op (s.view.clientGet c op.ino).1 =
      some last) : Alone c (s.during c op s.view (.ready op) .none) last := by
  cases hcache : ((s.during c op s.view (.ready op) .none).client c).dataCache op.ino with
  | some buf =>
      have hget : s.view.clientGet c op.ino = (buf, s.view) := by
        rw [System.clientGet, show (s.view.client c).dataCache op.ino = some buf from hcache]
      have hlook : step (s.during c op s.view (.ready op) .none) (.look c) = some last := by
        simp only [step, during_pc, hcache]
        rw [← h, hget]
      exact .step _ rfl hlook (.refl c last)
  | none =>
      let got := s.view.get c op.ino
      have hget : s.view.clientGet c op.ino = (got.1, got.2.setClient c { got.2.client c with
          dataCache := Function.update (got.2.client c).dataCache op.ino (some got.1) }) := by
        rw [System.clientGet, show (s.view.client c).dataCache op.ino = none from hcache]
      have hlook : step (s.during c op s.view (.ready op) .none) (.look c) =
          some (s.during c op s.view (.getting op) (.requested (.get op.ino))) := by
        simp only [step, during_pc, hcache]
        simp [Sys.during, Sys.setPc, Sys.setRpc]
      have hserve : Alone c (s.during c op s.view (.getting op) (.requested (.get op.ino)))
          (s.during c op got.2 (.getting op) (.replied (.data got.1))) := by
        have hhandle : s.view.handle diskManager env c (request (.get op.ino)) = some (.data got.1, got.2) := rfl
        have hsmall : Small s.view.server.dataCache (.get op.ino) := trivial
        exact alone_serve hsmall hhandle
      have hkept : (s.during c op got.2 (.getting op) (.replied (.data got.1))).setData c op.ino got.1 =
          s.during c op (s.view.clientGet c op.ino).2 (.getting op) (.replied (.data got.1)) := by
        rw [hget]
        rfl
      have hreply : step (s.during c op got.2 (.getting op) (.replied (.data got.1))) (.reply c) = some last := by
        simp only [step, during_rpc, during_pc]
        rw [hkept, ← h, during_got, during_got, hget]
      exact .step _ rfl hlook (hserve.trans (.step _ rfl hreply (.refl c last)))

theorem alone_finish {result : Result} (hpc : s.pc c = .idle) (hrpc : s.rpc c = .none) (hlock : s.lock op.ino = none) :
    Alone c (s.during c op sys (.releasing op result) .none)
      { s.place sys with log := s.log ++ [(c, op, result)] } := by
  have hcall : Function.update s.rpc c .none = s.rpc := by rw [← hrpc, Function.update_eq_self]
  have hidle : Function.update s.pc c .idle = s.pc := by rw [← hpc, Function.update_eq_self]
  have hfree : Function.update s.lock op.ino none = s.lock := by rw [← hlock, Function.update_eq_self]
  have hfinish : step (s.during c op sys (.releasing op result) .none) (.finish c) =
      some { s.place sys with log := s.log ++ [(c, op, result)] } := by
    simp only [step, during_pc]
    by_cases hlocks : op.locks = true <;>
    simp [Sys.during, Sys.setPc, Sys.setLock, Sys.place, hlocks, hcall, hidle, hfree]
  exact .step _ rfl hfinish (.refl c _)

-- The call that an operation makes once it has the content is not another get.
theorem handle_of_operate {req : Extent.Request} {after : Extent.Reply → Result} {buf : Bytes}
    {out : ExtentService.Reply × System Fs n} (hnext : op.next buf = some (.call req after))
    (h : sys.operate diskManager env c (request req) = some out) :
    sys.handle diskManager env c (request req) = some out := by
  cases req with
  | get id =>
      cases op with
      | file ino op => cases op <;> cases hnext
      | lookup parent name | readdir dir =>
          obtain ⟨_, -, hcall⟩ := Option.map_eq_some_iff.mp hnext
          cases hcall
      | create parent name | mkdir parent name | symlink parent name link =>
          obtain ⟨found, -, hcall⟩ := Option.map_eq_some_iff.mp hnext
          cases found <;> cases hcall
  | put id buf | create type parent name | createSymLink parent name link => exact h

def Next.Small (dataCache : Nat → Bytes) : Next → Prop
  | .done _ => True
  | .call req _ => Yfs.Small dataCache req

instance (dataCache : Nat → Bytes) : (next : Next) → Decidable (next.Small dataCache)
  | .done _ => inferInstanceAs (Decidable True)
  | .call req _ => inferInstanceAs (Decidable (Yfs.Small dataCache req))

-- An operation of yfs_client as one step is a run of the messages it sends.
theorem perform_alone {result : Result} (hpc : s.pc c = .idle) (hrpc : s.rpc c = .none)
    (hlock : s.lock op.ino = none)
    (hsmall : ∀ next ∈ op.next (s.view.clientGet c op.ino).1, next.Small s.server.dataCache)
    (h : perform diskManager env s.view c op = some (result, sys)) :
    Alone c s { s.place sys with log := s.log ++ [(c, op, result)] } := by
  refine (alone_start hpc hrpc hlock).trans (.trans ?_ (alone_finish hpc hrpc hlock))
  rcases perform_cases h with ⟨hnext, rfl⟩ | ⟨req, after, rep, hnext, rfl, hop⟩
  · exact alone_look env (by rw [during_got, hnext]; rfl)
  · have hlook : Alone c (s.during c op s.view (.ready op) .none)
        (s.during c op (s.view.clientGet c op.ino).2 (.calling op after) (.requested req)) :=
      alone_look env (by rw [during_got, hnext]; rfl)
    have hcache : (s.view.clientGet c op.ino).2.server.dataCache = s.server.dataCache :=
      (clientGet_server s.view c op.ino).2.1
    have hreq : Small s.server.dataCache req := hsmall _ hnext
    have hserve : Alone c (s.during c op (s.view.clientGet c op.ino).2 (.calling op after) (.requested req))
        (s.during c op sys (.calling op after) (.replied (reply rep))) :=
      alone_serve (hcache ▸ hreq) (handle_of_operate hnext hop)
    have hreply : step (s.during c op sys (.calling op after) (.replied (reply rep))) (.reply c) =
        some (s.during c op sys (.releasing op (after (reply rep))) .none) := by
      simp only [step, during_rpc, during_pc]
      cases reply rep <;> simp [Sys.during, Sys.setPc, Sys.setRpc]
    exact hlook.trans (hserve.trans (.step _ rfl hreply (.refl c _)))

end Operations

section Sequences

variable {n : Nat}

-- All that the operations write has a length that fits an int.
def Smalls (sys : System Fs n) (c : Fin n) : List (Env × Op) → Prop
  | [] => True
  | (env, op) :: rest =>
      (∀ next ∈ op.next (sys.clientGet c op.ino).1, next.Small sys.server.dataCache) ∧
        ∀ out ∈ perform diskManager env sys c op, Smalls out.2 c rest

instance decidableSmalls (sys : System Fs n) (c : Fin n) : (ops : List (Env × Op)) → Decidable (Smalls sys c ops)
  | [] => inferInstanceAs (Decidable True)
  | (env, op) :: rest =>
      have (sys : System Fs n) : Decidable (Smalls sys c rest) := decidableSmalls sys c rest
      inferInstanceAs (Decidable ((∀ next ∈ op.next (sys.clientGet c op.ino).1, next.Small sys.server.dataCache) ∧
        ∀ out ∈ perform diskManager env sys c op, Smalls out.2 c rest))

-- Operations as single steps, one after another, are a run of the messages of that client: the two
-- models of the server give the same results and end in the same state.
theorem operations_alone (s : Sys n) (c : Fin n) (ops : List (Env × Op)) (results : List Result) (sys : System Fs n)
    (hpc : s.pc c = .idle) (hrpc : s.rpc c = .none) (hlock : ∀ id, s.lock id = none)
    (hsmall : Smalls s.view c ops) (h : performAll diskManager s.view c ops = some (results, sys)) :
    Alone c s { s.place sys with
      log := s.log ++ ((ops.map Prod.snd).zip results).map fun done => (c, done) } := by
  induction ops generalizing s results with
  | nil =>
      cases h
      simp only [List.map_nil, List.zip_nil_left, List.append_nil]
      exact .refl c s
  | cons head rest ih =>
      obtain ⟨env, op⟩ := head
      rw [performAll] at h
      split at h
      · cases h
      · next result mid hperform =>
          obtain ⟨⟨more, last⟩, hrest, heq⟩ := Option.map_eq_some_iff.mp h
          cases heq
          have hfirst := perform_alone hpc hrpc (hlock op.ino) hsmall.1 hperform
          have hlater := ih { s.place mid with log := s.log ++ [(c, op, result)] } more hpc hrpc hlock
            (hsmall.2 _ hperform) hrest
          simpa [Sys.place] using hfirst.trans hlater

-- A system that is at rest.
def idle (sys : System Fs n) : Sys n where
  server := ⟨sys.server.im, sys.server.clients, sys.server.dataCache, sys.server.attrCache⟩
  client := sys.client
  pc := fun _ => .idle
  rpc := fun _ => .none
  lock := fun _ => none
  log := []

-- A file is created, written and read, while the other client has a copy of the root.
def someOps : List (Env × Op) :=
  [(ExtentService.someEnv, .create 1 [97]), (ExtentService.someEnv, .file 2 (.write 1 [7, 8])),
    (ExtentService.someEnv, .file 2 (.read 5 1))]

theorem operations_alone_create : ∃ s s' : Sys 2, s.server.clients 1 1 = true ∧ Alone 0 s s' ∧
    s'.log = [(0, .create 1 [97], .created 2), (0, .file 2 (.write 1 [7, 8]), .written 2),
      (0, .file 2 (.read 5 1), .data [7, 8])] ∧
    (s'.client 1).dataCache 1 = some [97, 58, 50, 47] := by
  let sys := ((ExtentService.emptySystem 2).clientGet 1 1).2
  have hrun : (performAll diskManager sys 0 someOps).map (fun out => (out.1, (out.2.client 1).dataCache 1)) =
      some ([.created 2, .written 2, .data [7, 8]], some [97, 58, 50, 47]) := by
    decide +kernel
  obtain ⟨⟨results, last⟩, hperform, hfields⟩ := Option.map_eq_some_iff.mp hrun
  obtain ⟨rfl, hcopy⟩ := Prod.mk.inj hfields
  have halone := operations_alone (idle sys) 0 someOps _ last rfl rfl (fun _ => rfl) (by decide +kernel) hperform
  exact ⟨idle sys, _, rfl, halone, rfl, hcopy⟩

end Sequences

end CseLabs.Yfs
