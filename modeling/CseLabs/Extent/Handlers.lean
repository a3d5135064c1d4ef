import CseLabs.Extent.Stored

namespace CseLabs.Extent

open InodeManager
open Directory (entry)

variable {n : Nat} {server server' : Server n} {junk : Stack} {now : Times} {c : Fin n} {call : Call n}

section Updates

theorem mask_eq {id : Nat} (h : id < INODE_NUM) : mask id = id := by
  have hmod : mask id = id % 2 ^ 31 := Nat.and_two_pow_sub_one_eq_mod id 31
  rw [hmod]
  exact Nat.mod_eq_of_lt (h.trans (by decide))

theorem store_ok (server : Server n) {α : Type} {m : Im α} {a : α} {im : Fs} (h : m server.im = .ok a im) :
    server.store m = some (a, { server with im := im }) := by
  rw [Server.store, h]

theorem store_eq_some {α : Type} {m : Im α} {a : α} (h : server.store m = some (a, server')) :
    ∃ im, m server.im = .ok a im ∧ server' = { server with im := im } := by
  rw [Server.store] at h
  split at h
  · next im hm =>
      cases h
      exact ⟨im, hm, rfl⟩
  · cases h

theorem updateCache_of_readFile (server : Server n) {junk : Stack} {id : Nat} {content : Bytes} (hid : id < INODE_NUM)
    (hread : readFile junk id server.im = .ok (some content) server.im) :
    ∃ attr, server.updateCache junk id = some { server with
      dataCache := Function.update server.dataCache id content
      attrCache := Function.update server.attrCache id attr } := by
  have hread' := store_ok server hread
  have hattr := store_ok server (getattr_run (s := server.im) hid {})
  rw [Server.updateCache, mask_eq hid]
  simp only [hread', hattr, Option.bind_eq_bind, Option.bind_some]
  exact ⟨_, rfl⟩

theorem updateCache_run (server : Server n) (junk : Stack) {id : Nat} (h : Separated False server.im)
    (hlive : server.im.Live id) :
    ∃ attr, server.updateCache junk id = some { server with
      dataCache := Function.update server.dataCache id (server.im.content (server.im.inode id))
      attrCache := Function.update server.attrCache id attr } :=
  updateCache_of_readFile server hlive.1 (h.readFile ⟨hlive.1, .inr hlive.2⟩ junk)

-- From one message to the next the server registers clients and creates inodes, and its copies
-- change only where they are said to.
structure Grows (server server' : Server n) (changed : Nat → Prop) : Prop where
  clients : ∀ d id, server.clients d id = true → server'.clients d id = true
  keeps : Keeps server.im server'.im
  data : ∀ id, Readable server.im id → ¬ changed id → server'.dataCache id = server.dataCache id
  fresh : ∀ id, ¬ server.im.Live id → Readable server'.im id → server'.dataCache id = []

def nothing : Nat → Prop := fun _ => False

theorem Grows.trans {server'' : Server n} {changed : Nat → Prop} (h : Grows server server' changed)
    (h' : Grows server' server'' nothing) : Grows server server'' changed := by
  refine ⟨fun d id hd => h'.clients d id (h.clients d id hd), h.keeps.trans h'.keeps, fun id hreadable hsame => ?_,
    fun id hfree hreadable => ?_⟩
  · rw [h'.data id (h.keeps.readable hreadable) fun hf => hf, h.data id hreadable hsame]
  · by_cases hlive : server'.im.Live id
    · have hold : Readable server'.im id := ⟨hlive, h'.keeps id hlive ▸ hreadable.2⟩
      rw [h'.data id hold fun hf => hf, h.fresh id hfree hold]
    · exact h'.fresh id hlive hreadable

theorem Grows.refl (server : Server n) (changed : Nat → Prop) : Grows server server changed :=
  ⟨fun _ _ hd => hd, .refl _, fun _ _ _ => rfl, fun _ hfree hreadable => absurd hreadable.1 hfree⟩

theorem grows_insert (server : Server n) (c : Fin n) (id : Nat) : Grows server (server.insert c id) nothing := by
  refine ⟨fun d j hd => ?_, .refl _, fun _ _ _ => rfl, fun j hfree hreadable => absurd hreadable.1 hfree⟩
  show Function.update server.clients c (Function.update (server.clients c) id true) d j = true
  by_cases hc : d = c
  · subst hc
    rw [Function.update_self]
    by_cases hj : j = id
    · rw [hj, Function.update_self]
    · rw [Function.update_of_ne hj]
      exact hd
  · rw [Function.update_of_ne hc]
    exact hd

theorem insert_self (server : Server n) (c : Fin n) (id : Nat) : (server.insert c id).clients c id = true := by
  simp [Server.insert]

structure JobOk (server : Server n) (job : Job n) : Prop where
  live : ∀ id ∈ job.id :: job.todo, server.im.Live id
  target : server.clients job.target job.id = true

theorem JobOk.grow {job : Job n} {changed : Nat → Prop} (h : JobOk server job) (hgrows : Grows server server' changed) :
    JobOk server' job :=
  ⟨fun id hid => hgrows.keeps.live (h.live id hid), hgrows.clients _ _ h.target⟩

-- The update_handler call for client d is still to be received, or to be made.
def Awaits (call : Call n) (id : Nat) (d : Fin n) : Prop :=
  ∃ job, call = .updating job ∧ job.id = id ∧ (job.target = d ∧ job.delivered = false ∨ d ∈ job.rest)

-- What a call has come to, so that the conditions on it can be computed.
def Call.job : Call n → Option (Job n)
  | .updating job => some job
  | .none | .requested _ | .replied _ => Option.none

theorem mem_job {job : Job n} (call : Call n) : job ∈ call.job ↔ call = .updating job := by
  cases call <;> simp [Call.job]

def Call.request : Call n → Option Request
  | .requested req => some req
  | .none | .updating _ | .replied _ => Option.none

theorem mem_request {req : Request} (call : Call n) : req ∈ call.request ↔ call = .requested req := by
  cases call <;> simp [Call.request]

def Call.content : Call n → Option Bytes
  | .replied (.data buf) => some buf
  | .none | .requested _ | .updating _ | .replied _ => Option.none

theorem mem_content {buf : Bytes} (call : Call n) : buf ∈ call.content ↔ call = .replied (.data buf) := by
  rcases call with _ | req | job | ⟨reply⟩
  case replied => cases reply <;> simp [Call.content]
  all_goals simp [Call.content]

instance (call : Call n) (id : Nat) (d : Fin n) : Decidable (Awaits call id d) :=
  decidable_of_iff (∃ job ∈ call.job, job.id = id ∧ (job.target = d ∧ job.delivered = false ∨ d ∈ job.rest))
    (by simp only [mem_job, Awaits])

-- A handler has sent a message.
structure Sent (server : Server n) (call : Call n) : Prop where
  stored : Stored server.im server.dataCache
  job : ∀ job, call = .updating job → JobOk server job ∧ job.data = server.dataCache job.id
  cases : (∃ job, call = .updating job) ∨ ∃ reply, call = .replied reply

-- A registered client of the list is not skipped.
theorem mem_dropWhile {rest : List (Fin n)} {id : Nat} {d : Fin n} (hd : d ∈ rest) (hreg : server.clients d id = true) :
    d ∈ rest.dropWhile fun d => !server.clients d id := by
  rw [← List.takeWhile_append_dropWhile (p := fun d => !server.clients d id) (l := rest), List.mem_append] at hd
  refine hd.resolve_left fun htake => ?_
  simpa [hreg] using List.mem_takeWhile_imp htake

theorem not_registered_of_nil {rest : List (Fin n)} {id : Nat}
    (hnil : (rest.dropWhile fun d => !server.clients d id) = []) {d : Fin n} (hd : d ∈ rest) :
    ¬ server.clients d id = true := by
  intro hreg
  have hmem := mem_dropWhile hd hreg
  rw [hnil] at hmem
  cases hmem

theorem sent_update {register id : Nat} {reply : Reply} {target : Fin n} {rest tail : List (Fin n)} {todo : List Nat}
    (h : Stored server.im server.dataCache) (hlive : ∀ i ∈ id :: todo, server.im.Live i)
    (hdrop : (rest.dropWhile fun d => !server.clients d id) = target :: tail)
    (hcall : call = .updating {
      id := id, target := target, attr := server.attrCache id, data := server.dataCache id
      delivered := false, rest := tail, todo := todo, register := register, reply := reply }) :
    Sent server call ∧ ∀ d ∈ rest, server.clients d id = true → Awaits call id d := by
  have htarget : server.clients target id = true := by
    have hhead := List.head_dropWhile_not (fun d => !server.clients d id) (l := rest) (by simp [hdrop])
    simpa [hdrop] using hhead
  refine ⟨⟨h, fun job hjob => ?_, .inl ⟨_, hcall⟩⟩, fun d hd hreg => ⟨_, hcall, rfl, ?_⟩⟩
  · rw [hcall] at hjob
    cases hjob
    exact ⟨⟨hlive, htarget⟩, rfl⟩
  · have hmem := mem_dropWhile hd hreg
    rw [hdrop, List.mem_cons] at hmem
    exact hmem.imp (fun heq => ⟨heq.symm, rfl⟩) fun htail => htail

-- A second reading of a file changes nothing.
theorem grows_refresh {id : Nat} {attrCache : Nat → Attr} (h : Stored server.im server.dataCache)
    (hlive : server.im.Live id) :
    Grows server { server with
      dataCache := Function.update server.dataCache id (server.im.content (server.im.inode id))
      attrCache := attrCache } nothing := by
  refine ⟨fun _ _ hd => hd, .refl _, fun j hreadable _ => ?_, fun j hfree hreadable => absurd hreadable.1 hfree⟩
  show Function.update server.dataCache id _ j = _
  by_cases hj : j = id
  · subst hj
    rw [Function.update_self, h.content j hreadable]
  · rw [Function.update_of_ne hj]

-- The loop of broadcast reaches every registered client of rest.
theorem broadcast_spec {register id : Nat} {reply : Reply} {rest : List (Fin n)} {todo : List Nat}
    (h : Stored server.im server.dataCache) (hlive : ∀ i ∈ id :: todo, server.im.Live i)
    (hrun : server.broadcast junk c register reply id rest todo = some (server', call)) :
    Sent server' call ∧ Grows server server' nothing ∧
      ∀ d ∈ rest, server.clients d id = true → Awaits call id d := by
  induction todo generalizing server id rest with
  | nil =>
      rw [Server.broadcast] at hrun
      split at hrun
      · next hdrop =>
          cases hrun
          obtain ⟨hsent, hawaits⟩ := sent_update h hlive hdrop rfl
          exact ⟨hsent, .refl _ _, hawaits⟩
      · next hnil =>
          cases hrun
          exact ⟨⟨h, fun job hjob => (by cases hjob), .inr ⟨_, rfl⟩⟩, grows_insert server c register,
            fun d hd hreg => absurd hreg (not_registered_of_nil hnil hd)⟩
  | cons next todo ih =>
      rw [Server.broadcast] at hrun
      split at hrun
      · next hdrop =>
          cases hrun
          obtain ⟨hsent, hawaits⟩ := sent_update h hlive hdrop rfl
          exact ⟨hsent, .refl _ _, hawaits⟩
      · next hnil =>
          have hnext : server.im.Live next := hlive next (by simp)
          obtain ⟨attr, hupdate⟩ := updateCache_run server junk h.separated hnext
          simp only [hupdate, Option.bind_eq_bind, Option.bind_some, mask_eq hnext.1] at hrun
          have hrest := fun hstored hlive => ih hstored hlive hrun
          obtain ⟨hsent, hgrows, -⟩ := hrest (h.refresh hnext) fun i hi => hlive i (List.mem_cons_of_mem _ hi)
          exact ⟨hsent, (grows_refresh h hnext).trans hgrows,
            fun d hd hreg => absurd hreg (not_registered_of_nil hnil hd)⟩

end Updates

section Requests

-- A request that changes one file: its new content is in the server's copy, and a call of
-- update_handler is on its way to every client that is registered for it.
structure Handled (server server' : Server n) (call : Call n) (id : Nat) (buf : Bytes) : Prop where
  sent : Sent server' call
  grows : Grows server server' (· = id)
  data : server'.dataCache id = buf
  awaits : ∀ d, server.clients d id = true → Awaits call id d

theorem updateAll_spec {im : Fs} {id register : Nat} {reply : Reply} {buf : Bytes} {todo : List Nat}
    (h : Stored server.im server.dataCache) (hreadable : Readable server.im id) (hkeeps : Keeps server.im im)
    (hstored : Stored im (Function.update server.dataCache id buf)) (hcontent : im.content (im.inode id) = buf)
    (hlive : ∀ i ∈ todo, im.Live i)
    (hrun : { server with im := im }.updateAll junk c register reply id todo = some (server', call)) :
    Handled server server' call id buf := by
  have hid : im.Live id := hkeeps.live hreadable.1
  obtain ⟨attr, hupdate⟩ := updateCache_run { server with im := im } junk hstored.separated hid
  simp only [Server.updateAll, hupdate, Option.bind_eq_bind, Option.bind_some, mask_eq hid.1, hcontent] at hrun
  have hbroadcast := fun hstored hlive => broadcast_spec hstored hlive hrun
  obtain ⟨hsent, hgrows, hawaits⟩ := hbroadcast hstored fun i hi => (List.mem_cons.mp hi).elim (· ▸ hid) (hlive i)
  -- what the write has changed, before the messages
  have hwrite : Grows server { server with
      im := im, dataCache := Function.update server.dataCache id buf
      attrCache := Function.update server.attrCache id attr } (· = id) := by
    refine ⟨fun _ _ hd => hd, hkeeps, fun j _ hj => Function.update_of_ne hj .., fun j hfree hnew => ?_⟩
    have hj : j ≠ id := fun hj => hfree (hj ▸ hreadable.1)
    exact (Function.update_of_ne hj ..).trans (h.free j hnew.1.1 hfree)
  refine ⟨hsent, hwrite.trans hgrows, ?_, fun d hreg => hawaits d (List.mem_finRange d) hreg⟩
  rw [hgrows.data id (hkeeps.readable hreadable) fun hf => hf]
  exact Function.update_self ..

theorem writeFile_eq_some {id : Nat} {buf : Bytes} (hid : id < INODE_NUM)
    (h : server.writeFile junk now id buf = some server') :
    ∃ im, writeFile junk now id buf server.im = .ok () im ∧ server' = { server with im := im } := by
  rw [Server.writeFile, Nat.mod_eq_of_lt (hid.trans (by decide)), Option.map_eq_some_iff] at h
  obtain ⟨⟨_, server₁⟩, hstore, rfl⟩ := h
  exact store_eq_some hstore

-- The write_file calls of a request are possible.
def Sound (junk : Stack) (now : Times) (server : Server n) : Request → Prop
  | .get _ => True
  | .put id buf => Takes junk now server.im (mask id) buf
  | .create type parent name =>
      ∀ id im, allocInode type server.im = .ok id im →
        Takes junk now im parent (server.dataCache parent ++ entry name id)
  | .createSymLink parent name link =>
      ∀ id im, allocInode T_SYMLINK server.im = .ok id im →
        Takes junk now im id link ∧
          ∀ im', writeFile junk now id link im = .ok () im' →
            Takes junk now im' parent (server.dataCache parent ++ entry name id)

-- A condition on what a call returns, if it returns.
def decidableReturns {ε σ α : Type} (r : EStateM.Result ε σ α) (p : α → σ → Prop) [∀ a s, Decidable (p a s)] :
    Decidable (∀ a s, r = .ok a s → p a s) :=
  match r with
  | .ok a s => decidable_of_iff (p a s) ⟨fun h _ _ heq => by cases heq; exact h, fun h => h a s rfl⟩
  | .error _ _ => .isTrue fun _ _ heq => by cases heq

instance (junk : Stack) (now : Times) (server : Server n) : (req : Request) → Decidable (Sound junk now server req)
  | .get _ => inferInstanceAs (Decidable True)
  | .put id buf => inferInstanceAs (Decidable (Takes junk now server.im (mask id) buf))
  | .create type parent name => decidableReturns (allocInode type server.im) fun id im =>
      Takes junk now im parent (server.dataCache parent ++ entry name id)
  | .createSymLink parent name link =>
      have (id : Nat) (im : Fs) : Decidable (∀ im', writeFile junk now id link im = .ok () im' →
          Takes junk now im' parent (server.dataCache parent ++ entry name id)) :=
        @decidable_of_iff _ _ ⟨fun h im' => h () im', fun h _ im' => h im'⟩
          (decidableReturns (writeFile junk now id link im) fun _ im' =>
            Takes junk now im' parent (server.dataCache parent ++ entry name id))
      decidableReturns (allocInode T_SYMLINK server.im) fun id im => Takes junk now im id link ∧
        ∀ im', writeFile junk now id link im = .ok () im' →
          Takes junk now im' parent (server.dataCache parent ++ entry name id)

theorem put_spec {id : Nat} {buf : Bytes} (h : Stored server.im server.dataCache) (hreadable : Readable server.im id)
    (hsound : Sound junk now server (.put id buf)) (hrun : server.put junk now c id buf = some (server', call)) :
    Handled server server' call id buf := by
  rw [Sound, mask_eq hreadable.1.1] at hsound
  simp only [Server.put, mask_eq hreadable.1.1, Option.bind_eq_bind, Option.bind_eq_some_iff] at hrun
  obtain ⟨server₁, hwrite, hrun⟩ := hrun
  obtain ⟨im, him, rfl⟩ := writeFile_eq_some hreadable.1.1 hwrite
  obtain ⟨hstored, hkeeps, -, hcontent⟩ := h.write hreadable.1 hsound him (fun _ => Function.update_self ..)
    fun j hj => Function.update_of_ne hj ..
  exact updateAll_spec h hreadable hkeeps hstored hcontent (fun i hi => absurd hi (List.not_mem_nil)) hrun

-- The new inode is none of those in use.
theorem create_spec {type : UInt32} {parent : Nat} {name : Bytes} (h : Stored server.im server.dataCache)
    (hreadable : Readable server.im parent) (htype : type.toUInt16 ≠ 0)
    (hsound : Sound junk now server (.create type parent name))
    (hrun : server.create junk now c type parent name = some (server', call)) :
    ∃ id < INODE_NUM, Handled server server' call parent (server.dataCache parent ++ entry name id) := by
  simp only [Server.create, Option.bind_eq_bind, Option.bind_eq_some_iff] at hrun
  obtain ⟨⟨id, server₁⟩, halloc, hrun⟩ := hrun
  obtain ⟨im, him, rfl⟩ := store_eq_some halloc
  obtain ⟨hstored, hkeeps, hid, hfree, hlive, -⟩ := h.alloc htype him
  dsimp only at hrun
  rw [if_neg hid.ne] at hrun
  simp only [Option.bind_eq_some_iff] at hrun
  obtain ⟨server₁, hwrite, hrun⟩ := hrun
  obtain ⟨im', him', rfl⟩ := writeFile_eq_some hreadable.1.1 hwrite
  obtain ⟨hstored', hkeeps', -, hcontent⟩ := hstored.write (hkeeps.live hreadable.1) (hsound id im him) him'
    (fun _ => Function.update_self ..) fun j hj => Function.update_of_ne hj ..
  refine ⟨id, hid, updateAll_spec h hreadable (hkeeps.trans hkeeps') hstored' hcontent (fun i hi => ?_) hrun⟩
  rw [List.mem_singleton.mp hi]
  exact hkeeps'.live hlive

theorem createSymLink_spec {parent : Nat} {name link : Bytes} (h : Stored server.im server.dataCache)
    (hreadable : Readable server.im parent) (hsound : Sound junk now server (.createSymLink parent name link))
    (hrun : server.createSymLink junk now c parent name link = some (server', call)) :
    ∃ id < INODE_NUM, Handled server server' call parent (server.dataCache parent ++ entry name id) := by
  simp only [Server.createSymLink, Option.bind_eq_bind, Option.bind_eq_some_iff] at hrun
  obtain ⟨⟨id, server₁⟩, halloc, server₂, hlink, server₃, hwrite, hrun⟩ := hrun
  obtain ⟨im, him, rfl⟩ := store_eq_some halloc
  obtain ⟨hstored, hkeeps, hid, hfree, hlive, htype, -⟩ := h.alloc (by decide) him
  obtain ⟨im₁, him₁, rfl⟩ := writeFile_eq_some hid hlink
  obtain ⟨htakes, htakes'⟩ := hsound id im him
  -- nobody asks for the content of the link yet
  obtain ⟨hstored₁, hkeeps₁, -⟩ := hstored.write hlive htakes him₁ (fun hr => absurd htype hr.2) fun _ _ => rfl
  obtain ⟨im', him', rfl⟩ := writeFile_eq_some hreadable.1.1 hwrite
  have hkeeps' := hkeeps.trans hkeeps₁
  obtain ⟨hstored', hkeeps₂, -, hcontent⟩ := hstored₁.write (hkeeps'.live hreadable.1) (htakes' im₁ him₁) him'
    (fun _ => Function.update_self ..) fun j hj => Function.update_of_ne hj ..
  refine ⟨id, hid, updateAll_spec h hreadable (hkeeps'.trans hkeeps₂) hstored' hcontent (fun i hi => ?_) hrun⟩
  rw [List.mem_singleton.mp hi]
  exact hkeeps₂.live (hkeeps₁.live hlive)

end Requests

end CseLabs.Extent
