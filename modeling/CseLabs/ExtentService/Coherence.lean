import CseLabs.ExtentService
import CseLabs.InodeManager.Theorems

namespace CseLabs.ExtentService

open InodeManager (Bytes Attr)
open Extent (Client mask)

section Copies

variable {ι κ α : Type}

-- Who has a copy is registered for it, and has the original's value.
def Copies (registered : ι → κ → Bool) (copy : ι → κ → Option α) (original : κ → α) : Prop :=
  ∀ i k a, copy i k = some a → registered i k = true ∧ a = original k

variable {registered registered' : ι → κ → Bool} {copy copy' : ι → κ → Option α} {original original' : κ → α}

theorem Copies.register (h : Copies registered copy original)
    (hmore : ∀ i k, registered i k = true → registered' i k = true) : Copies registered' copy original :=
  fun i k a ha => (h i k a ha).imp_left (hmore i k)

-- The original of one key changes, and everybody registered for it gets the new value or loses
-- the copy.
theorem Copies.tell {key : κ} (h : Copies registered copy original)
    (htold : ∀ i, registered i key = true → ∀ a, copy' i key = some a → a = original' key)
    (hnot : ∀ i, ¬ registered i key = true → copy' i key = copy i key)
    (hcopy : ∀ i k, k ≠ key → copy' i k = copy i k) (horiginal : ∀ k, k ≠ key → original' k = original k) :
    Copies registered copy' original' := by
  intro i k a ha
  by_cases hk : k = key
  · subst hk
    by_cases hi : registered i k = true
    · exact ⟨hi, htold i hi a ha⟩
    · rw [hnot i hi] at ha
      exact absurd (h i k a ha).1 hi
  · rw [hcopy i k hk] at ha
    rw [horiginal k hk]
    exact h i k a ha

-- Somebody registers and takes a copy.
theorem Copies.take [DecidableEq ι] [DecidableEq κ] {i : ι} {k : κ} (h : Copies registered copy original)
    (hi : registered i k = true) :
    Copies registered (Function.update copy i (Function.update (copy i) k (some (original k)))) original := by
  intro j l a ha
  by_cases hj : j = i
  · subst hj
    rw [Function.update_self] at ha
    by_cases hl : l = k
    · subst hl
      rw [Function.update_self] at ha
      exact ⟨hi, (Option.some.inj ha).symm⟩
    · rw [Function.update_of_ne hl] at ha
      exact h j l a ha
  · rw [Function.update_of_ne hj] at ha
    exact h j l a ha

end Copies

variable {σ : Type} {n : Nat} {s s' : System σ n} {m : Manager σ} {env : Env}

section Broadcast

-- What broadcast makes of a client.
def System.heard (s : System σ n) (id : Nat) (isRemove : Bool) (d : Fin n) : Client :=
  if s.server.clients d id then (s.callback id isRemove d).client d else s.client d

theorem foldl_callback (id : Nat) (isRemove : Bool) {rest : List (Fin n)} (hnodup : rest.Nodup) (s : System σ n) :
    rest.foldl (fun s d => if s.server.clients d id then s.callback id isRemove d else s) s =
      { s with client := fun d => if d ∈ rest then s.heard id isRemove d else s.client d } := by
  induction rest generalizing s with
  | nil => simp
  | cons d rest ih =>
      obtain ⟨hd, hrest⟩ := List.nodup_cons.mp hnodup
      rw [List.foldl_cons, ih hrest]
      by_cases hreg : s.server.clients d id = true
      · rw [if_pos hreg]
        congr 1
        funext e
        by_cases he : e = d
        · subst he
          simp [System.heard, hd, hreg]
        · simp [System.heard, System.callback, he]
      · rw [if_neg hreg]
        congr 1
        funext e
        by_cases he : e = d
        · subst he
          simp [System.heard, hd, hreg]
        · simp [he]

theorem broadcast_eq (s : System σ n) (id : Nat) (isRemove : Bool) :
    s.broadcast id isRemove = { s with client := s.heard id isRemove } := by
  rw [System.broadcast, foldl_callback id isRemove (List.nodup_finRange n)]
  simp only [List.mem_finRange, if_true]

-- A registered client has the server's copies, or none; for other inodes nothing changes.
theorem heard_self {d : Fin n} {id : Nat} (hreg : s.server.clients d id = true) (isRemove : Bool) :
    (s.heard id isRemove d).dataCache id = (if isRemove then none else some (s.server.dataCache id)) ∧
      (s.heard id isRemove d).attrCache id = (if isRemove then none else some (s.server.attrCache id)) := by
  rw [System.heard, if_pos hreg]
  cases isRemove <;> simp [System.callback, removeHandler, Client.updateHandler]

theorem heard_of_not {d : Fin n} {id : Nat} (hreg : ¬ s.server.clients d id = true) (isRemove : Bool) :
    s.heard id isRemove d = s.client d := if_neg hreg

theorem heard_of_ne {id j : Nat} (hj : j ≠ id) (isRemove : Bool) (d : Fin n) :
    (s.heard id isRemove d).dataCache j = (s.client d).dataCache j ∧
      (s.heard id isRemove d).attrCache j = (s.client d).attrCache j := by
  rw [System.heard]
  split
  · cases isRemove <;> simp [System.callback, removeHandler, Client.updateHandler, hj]
  · exact ⟨rfl, rfl⟩

end Broadcast

section Coherence

structure Coherent (s : System σ n) : Prop where
  data : Copies s.server.clients (fun c => (s.client c).dataCache) s.server.dataCache
  attr : Copies s.server.clients (fun c => (s.client c).attrCache) s.server.attrCache

theorem coherent_of_empty (h : Empty s) : Coherent s := by
  constructor
  · intro c id buf hbuf
    cases (h.1 c id).2.1.symm.trans hbuf
  · intro c id a ha
    cases (h.1 c id).2.2.symm.trans ha

theorem Coherent.setIm (h : Coherent s) (im : σ) : Coherent (s.setIm im) := ⟨h.data, h.attr⟩

theorem insert_clients {c d : Fin n} {id j : Nat} (h : s.server.clients d j = true) :
    (s.insert c id).server.clients d j = true := by
  show Function.update s.server.clients c (Function.update (s.server.clients c) id true) d j = true
  by_cases hd : d = c
  · subst hd
    rw [Function.update_self]
    by_cases hj : j = id
    · rw [hj, Function.update_self]
    · rwa [Function.update_of_ne hj]
  · rwa [Function.update_of_ne hd]

theorem insert_clients_self (s : System σ n) (c : Fin n) (id : Nat) : (s.insert c id).server.clients c id = true := by
  simp [System.insert, Server.insert]

theorem Coherent.insert (h : Coherent s) (c : Fin n) (id : Nat) : Coherent (s.insert c id) :=
  ⟨h.data.register fun _ _ => insert_clients, h.attr.register fun _ _ => insert_clients⟩

-- The server's copies of one inode change, and everybody registered for it hears of it.
theorem Coherent.broadcast {id : Nat} (h : Coherent s) (isRemove : Bool) (hclient : s'.client = s.client)
    (hclients : s'.server.clients = s.server.clients)
    (hdata : ∀ j, j ≠ id → s'.server.dataCache j = s.server.dataCache j)
    (hattr : ∀ j, j ≠ id → s'.server.attrCache j = s.server.attrCache j) : Coherent (s'.broadcast id isRemove) := by
  rw [broadcast_eq]
  refine ⟨?_, ?_⟩
  · show Copies s'.server.clients (fun c => (s'.heard id isRemove c).dataCache) s'.server.dataCache
    rw [hclients]
    refine h.data.tell (fun c hc a ha => ?_) (fun c hc => ?_) (fun c j hj => ?_) hdata
    · rw [(heard_self (by rw [hclients]; exact hc) isRemove).1] at ha
      cases isRemove with
      | false => exact (Option.some.inj ha).symm
      | true => cases ha
    · rw [heard_of_not (by rw [hclients]; exact hc), hclient]
    · rw [(heard_of_ne hj isRemove c).1, hclient]
  · show Copies s'.server.clients (fun c => (s'.heard id isRemove c).attrCache) s'.server.attrCache
    rw [hclients]
    refine h.attr.tell (fun c hc a ha => ?_) (fun c hc => ?_) (fun c j hj => ?_) hattr
    · rw [(heard_self (by rw [hclients]; exact hc) isRemove).2] at ha
      cases isRemove with
      | false => exact (Option.some.inj ha).symm
      | true => cases ha
    · rw [heard_of_not (by rw [hclients]; exact hc), hclient]
    · rw [(heard_of_ne hj isRemove c).2, hclient]

theorem Coherent.updateCache {id : Nat} (h : Coherent s) (hrun : s.updateCache m env id = some s') :
    Coherent s' := by
  simp only [System.updateCache, Option.bind_eq_bind, Option.bind_eq_some_iff] at hrun
  obtain ⟨buf, -, attr, -, hrun⟩ := hrun
  cases hrun
  refine h.broadcast false rfl rfl (fun j hj => ?_) fun j hj => ?_
  · exact Function.update_of_ne hj ..
  · exact Function.update_of_ne hj ..

theorem Coherent.writeFile {id : Nat} {buf : Bytes} (h : Coherent s) (hrun : s.writeFile m env id buf = some s') :
    Coherent s' := by
  simp only [System.writeFile, Option.bind_eq_bind, Option.bind_eq_some_iff] at hrun
  obtain ⟨im, -, hrun⟩ := hrun
  cases hrun
  exact h.setIm im

theorem Coherent.put {c : Fin n} {id : Nat} {buf : Bytes} (h : Coherent s) (hrun : s.put m env c id buf = some s') :
    Coherent s' := by
  simp only [System.put, Option.bind_eq_bind, Option.bind_eq_some_iff] at hrun
  obtain ⟨s₁, hwrite, s₂, hupdate, hrun⟩ := hrun
  cases hrun
  exact ((h.writeFile hwrite).updateCache hupdate).insert c _

theorem Coherent.link {c : Fin n} {parent id : Nat} {name : Bytes} (h : Coherent s)
    (hrun : s.link m env c parent name id = some s') : Coherent s' := by
  simp only [System.link, Option.bind_eq_bind, Option.bind_eq_some_iff] at hrun
  obtain ⟨s₁, hwrite, s₂, hparent, s₃, hid, hrun⟩ := hrun
  cases hrun
  exact (((h.writeFile hwrite).updateCache hparent).updateCache hid).insert c id

theorem Coherent.create {c : Fin n} {type : UInt32} {parent : Nat} {name : Bytes} {reply : Reply} (h : Coherent s)
    (hrun : s.create m env c type parent name = some (reply, s')) : Coherent s' := by
  simp only [System.create, Option.bind_eq_bind, Option.bind_eq_some_iff] at hrun
  obtain ⟨⟨id, im⟩, -, hrun⟩ := hrun
  dsimp only at hrun
  split at hrun
  · cases hrun
    exact h.setIm im
  · obtain ⟨s₁, hlink, hrun⟩ := Option.bind_eq_some_iff.mp hrun
    cases hrun
    exact (h.setIm im).link hlink

theorem Coherent.createSymLink {c : Fin n} {parent : Nat} {name link : Bytes} {reply : Reply} (h : Coherent s)
    (hrun : s.createSymLink m env c parent name link = some (reply, s')) : Coherent s' := by
  simp only [System.createSymLink, Option.bind_eq_bind, Option.bind_eq_some_iff] at hrun
  obtain ⟨⟨id, im⟩, -, s₁, hwrite, s₂, hlink, hrun⟩ := hrun
  cases hrun
  exact ((h.setIm im).writeFile hwrite).link hlink

theorem Coherent.remove {c : Fin n} {parent id : Nat} {name : Bytes} (h : Coherent s)
    (hrun : s.remove m env c parent name id = some s') : Coherent s' := by
  simp only [System.remove, Option.bind_eq_bind, Option.bind_eq_some_iff] at hrun
  obtain ⟨im, -, buf, -, s₁, hwrite, s₂, hparent, hrun⟩ := hrun
  cases hrun
  have hcopies := ((h.setIm im).writeFile hwrite).updateCache hparent
  have hgone : Coherent ((s₂.erase (mask id)).broadcast (mask id) true) := by
    refine hcopies.broadcast true rfl rfl (fun j hj => ?_) fun j hj => ?_
    · exact Function.update_of_ne hj ..
    · exact Function.update_of_ne hj ..
  exact hgone.insert c _

theorem Coherent.handle {c : Fin n} {request : Request} {reply : Reply} (h : Coherent s)
    (hrun : s.handle m env c request = some (reply, s')) : Coherent s' := by
  cases request with
  | get id =>
      cases hrun
      exact h.insert c id
  | getattr id =>
      cases hrun
      exact h.insert c id
  | put id buf =>
      obtain ⟨s₁, hput, hrun⟩ := Option.bind_eq_some_iff.mp hrun
      cases hrun
      exact h.put hput
  | create type parent name => exact h.create hrun
  | createSymLink parent name link => exact h.createSymLink hrun
  | remove parent name id =>
      obtain ⟨s₁, hremove, hrun⟩ := Option.bind_eq_some_iff.mp hrun
      cases hrun
      exact h.remove hremove

theorem setClient_caches (s : System σ n) (c : Fin n) (client : Client) :
    (fun d => ((s.setClient c client).client d).dataCache) =
        Function.update (fun d => (s.client d).dataCache) c client.dataCache ∧
      (fun d => ((s.setClient c client).client d).attrCache) =
        Function.update (fun d => (s.client d).attrCache) c client.attrCache := by
  constructor <;>
  · funext d
    by_cases hd : d = c
    · subst hd
      simp [System.setClient]
    · simp [System.setClient, hd]

-- get answers from the client's copy, or with the server's, which then is the client's too.
theorem Coherent.clientGet (h : Coherent s) (c : Fin n) (eid : Nat) :
    (s.clientGet c eid).1 = s.server.dataCache eid ∧ Coherent (s.clientGet c eid).2 := by
  rw [System.clientGet]
  split
  · next buf hbuf => exact ⟨(h.data c eid buf hbuf).2, h⟩
  · have hinsert := h.insert c eid
    refine ⟨rfl, ?_, ?_⟩
    · rw [(setClient_caches _ c _).1]
      exact hinsert.data.take (insert_clients_self s c eid)
    · rw [(setClient_caches _ c _).2, Function.update_eq_self]
      exact hinsert.attr

theorem Coherent.clientGetattr (h : Coherent s) (c : Fin n) (eid : Nat) :
    (s.clientGetattr c eid).1 = s.server.attrCache eid ∧ Coherent (s.clientGetattr c eid).2 := by
  rw [System.clientGetattr]
  split
  · next a ha => exact ⟨(h.attr c eid a ha).2, h⟩
  · have hinsert := h.insert c eid
    refine ⟨rfl, ?_, ?_⟩
    · rw [(setClient_caches _ c _).1, Function.update_eq_self]
      exact hinsert.data
    · rw [(setClient_caches _ c _).2]
      exact hinsert.attr.take (insert_clients_self s c eid)

theorem Coherent.operation {event : Event n} (h : Coherent s) (hrun : operation m s event = some s') : Coherent s' := by
  obtain ⟨⟨reply, s₁⟩, hop, rfl⟩ := Option.map_eq_some_iff.mp hrun
  obtain ⟨env, c, request⟩ := event
  cases request with
  | get eid =>
      cases hop
      exact (h.clientGet c eid).2
  | getattr eid =>
      cases hop
      exact (h.clientGetattr c eid).2
  | put id buf => exact h.handle (show s.handle m env c (.put id buf) = some (reply, s₁) from hop)
  | create type parent name => exact h.handle (show s.handle m env c (.create type parent name) = some (reply, s₁) from hop)
  | createSymLink parent name link => exact h.handle (show s.handle m env c (.createSymLink parent name link) = some (reply, s₁) from hop)
  | remove parent name id => exact h.handle (show s.handle m env c (.remove parent name id) = some (reply, s₁) from hop)

theorem client_caches_coherent (m : Manager σ)
    (hr : Reachable (fun s event s' => operation m s event = some s') Empty s) :
    (∀ c id buf, (s.client c).dataCache id = some buf →
      s.server.clients c id = true ∧ buf = s.server.dataCache id) ∧
    (∀ c id a, (s.client c).attrCache id = some a → s.server.clients c id = true ∧ a = s.server.attrCache id) ∧
    ∀ env c id, (s.operate m env c (.get id)).map Prod.fst = (s.handle m env c (.get id)).map Prod.fst ∧
      (s.operate m env c (.getattr id)).map Prod.fst = (s.handle m env c (.getattr id)).map Prod.fst := by
  have h : Coherent s := hr.invariant Coherent (fun _ => coherent_of_empty) fun _ _ _ h hstep => h.operation hstep
  refine ⟨h.data, h.attr, fun env c id => ⟨?_, ?_⟩⟩
  · show some (Reply.data (s.clientGet c id).1) = some (.data (s.server.dataCache id))
    rw [(h.clientGet c id).1]
  · show some (Reply.attr (s.clientGetattr c id).1) = some (.attr (s.server.attrCache id))
    rw [(h.clientGetattr c id).1]

-- The service on a new disk.
def emptySystem (n : Nat) : System InodeManager.Fs n where
  server := {
    im := InodeManager.startFs, clients := fun _ _ => false, dataCache := fun _ => [], attrCache := fun _ => {} }
  client _ := ⟨fun _ => none, fun _ => none⟩

theorem empty_emptySystem (n : Nat) : Empty (emptySystem n) := ⟨fun _ _ => ⟨rfl, rfl, rfl⟩, fun _ => ⟨rfl, rfl⟩⟩

def someEnv : Env := ⟨.zero, ⟨1, 1, 1⟩⟩

-- Client 1 has read the root, and client 0 writes it.
theorem client_caches_coherent_put : ∃ s : System InodeManager.Fs 2,
    Reachable (fun s event s' => operation diskManager s event = some s') Empty s ∧
      (s.client 1).dataCache 1 = some [98] ∧ s.server.dataCache 1 = [98] := by
  have hrun : (execute (operation diskManager) (emptySystem 2)
      [⟨someEnv, 0, .put 1 [97]⟩, ⟨someEnv, 1, .get 1⟩, ⟨someEnv, 0, .put 1 [98]⟩]).map
      (fun s => (s.client 1).dataCache 1) = some (some [98]) := by
    decide +kernel
  obtain ⟨s, hs, hcopy⟩ := Option.map_eq_some_iff.mp hrun
  have hr : Reachable (fun s event s' => operation diskManager s event = some s') Empty s :=
    Reachable.computed (.start (empty_emptySystem 2)) hs
  exact ⟨s, hr, hcopy, ((client_caches_coherent diskManager hr).1 1 1 [98] hcopy).2.symm⟩

end Coherence

end CseLabs.ExtentService
