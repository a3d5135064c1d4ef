import CseLabs.Rpc.AtMostOnce

namespace CseLabs.Rpc

section Order

variable {window : List ReplyT} {xid xidRep : Nat}

def InOrder (window : List ReplyT) : Prop := (window.map (·.xid)).Pairwise (· ≤ ·)

theorem inOrder_insert (h : InOrder window) (xid : Nat) :
    InOrder (insertBefore (xid < ·.xid) { xid := xid } window) := by
  unfold InOrder at h ⊢
  rw [List.pairwise_map] at h ⊢
  exact pairwise_insertBefore ReplyT.xid h { xid := xid }

theorem inOrder_enroll (h : InOrder window) (xid xidRep : Nat) : InOrder (enroll window xid xidRep) :=
  (inOrder_insert h xid).sublist ((List.dropWhile_sublist _).map _)

-- Trimming an ordered window removes exactly the entries below xid_rep.
theorem mem_trim (h : InOrder window) {reply : ReplyT} :
    reply ∈ window.dropWhile (·.xid < xidRep) ↔ reply ∈ window ∧ xidRep ≤ reply.xid := by
  unfold InOrder at h
  rw [List.pairwise_map] at h
  induction window with
  | nil => simp
  | cons head rest ih =>
      obtain ⟨hhead, hrest⟩ := List.pairwise_cons.mp h
      by_cases hlt : head.xid < xidRep
      · rw [List.dropWhile_cons_of_pos (by simpa using hlt), ih hrest, List.mem_cons]
        refine ⟨fun hkept => ⟨.inr hkept.1, hkept.2⟩, ?_⟩
        rintro ⟨rfl | hmem, hle⟩
        · omega
        · exact ⟨hmem, hle⟩
      · rw [List.dropWhile_cons_of_neg (by simpa using hlt)]
        refine ⟨fun hmem => ⟨hmem, ?_⟩, fun hmem => hmem.1⟩
        rcases List.mem_cons.mp hmem with rfl | hmem
        · exact Nat.le_of_not_lt hlt
        · exact (Nat.le_of_not_lt hlt).trans (hhead reply hmem)

-- The xid is not below all of these.
def Above (xids : List Nat) (xid : Nat) : Prop := xids = [] ∨ ∃ other ∈ xids, other ≤ xid

-- FORGOTTEN is the answer for the xids below the first entry.
theorem forgotten_iff (h : InOrder window) :
    (checkduplicateAndUpdate window xid xidRep).1 = .FORGOTTEN ↔ ¬ Above (window.map (·.xid)) xid := by
  unfold checkduplicateAndUpdate
  have hfound : ∀ reply, window.find? (·.xid = xid) = some reply → Above (window.map (·.xid)) xid := by
    intro reply hfind
    have hxid : reply.xid = xid := by simpa using List.find?_some hfind
    exact .inr ⟨reply.xid, List.mem_map_of_mem (List.mem_of_find?_eq_some hfind), hxid.le⟩
  split
  · next hfind => simp [hfound _ hfind]
  · next hfind => simp [hfound _ hfind]
  · cases window with
    | nil => simp [Above]
    | cons head rest =>
        have hhead : ∀ other ∈ rest.map (·.xid), head.xid ≤ other := (List.pairwise_cons.mp h).1
        by_cases hlt : xid < head.xid
        · have hbelow : ¬ Above (head.xid :: rest.map (·.xid)) xid := by
            rintro (hnil | ⟨other, hmem, hle⟩)
            · cases hnil
            · rcases List.mem_cons.mp hmem with rfl | hmem
              · omega
              · have hother := hhead other hmem
                omega
          simp [hlt, hbelow]
        · have habove : Above (head.xid :: rest.map (·.xid)) xid :=
            .inr ⟨head.xid, by simp, Nat.le_of_not_lt hlt⟩
          simp [hlt, habove]

-- The xids in the window when a new request has been entered and the front trimmed.
def kept (window : List ReplyT) (req : Request) : List Nat :=
  (req.xid :: window.map (·.xid)).filter (req.xidRep ≤ ·)

theorem above_enroll (h : InOrder window) (req : Request) (xid : Nat) :
    Above ((enroll window req.xid req.xidRep).map (·.xid)) xid ↔ Above (kept window req) xid := by
  have hmem : ∀ y, y ∈ (enroll window req.xid req.xidRep).map (·.xid) ↔ y ∈ kept window req := by
    intro y
    have htrim : ∀ reply, reply ∈ enroll window req.xid req.xidRep ↔
        (reply = { xid := req.xid } ∨ reply ∈ window) ∧ req.xidRep ≤ reply.xid := by
      intro reply
      rw [enroll, mem_trim (inOrder_insert h req.xid), mem_insertBefore]
    simp only [List.mem_map, htrim, kept, List.mem_filter, List.mem_cons, decide_eq_true_eq]
    constructor
    · rintro ⟨reply, ⟨rfl | hold, hle⟩, rfl⟩
      · exact ⟨.inl rfl, hle⟩
      · exact ⟨.inr ⟨reply, hold, rfl⟩, hle⟩
    · rintro ⟨rfl | ⟨reply, hold, rfl⟩, hle⟩
      · exact ⟨{ xid := req.xid }, ⟨.inl rfl, hle⟩, rfl⟩
      · exact ⟨reply, ⟨.inr hold, hle⟩, rfl⟩
  simp only [Above, List.eq_nil_iff_forall_not_mem, hmem]

end Order

-- The call has neither got its reply nor timed out.
def Waiting (clt : Rpcc) (xid : Nat) : Prop := ∃ ca ∈ clt.calls xid, ca.done = none

def Sys.window (s : Sys) : List ReplyT := s.srv.replyWindow s.clt.cltNonce

-- The answer FORGOTTEN is for calls only that have finished.
def Remembers (s : Sys) : Prop :=
  ∀ xid xidRep, (checkduplicateAndUpdate s.window xid xidRep).1 = .FORGOTTEN → ¬ Waiting s.clt xid

-- The request is for this server, and its xid is neither in the window nor below its front.
def Taken (s : Sys) (req : Request) : Prop :=
  (req.srvNonce = 0 ∨ req.srvNonce = s.srv.nonce) ∧ ¬ Covered s.window req.xid

-- After a new request every waiting call is above an entry that stays, or has one itself. The
-- xid of a new call is above an entry too.
def Anchored (s : Sys) : Event → Prop
  | .call _ _ => Above (s.window.map (·.xid)) s.clt.xid
  | .dispatch req => Taken s req → ∀ xid, Waiting s.clt xid → Above (kept s.window req) xid
  | _ => True

section Steps

variable {s next : Sys} {event : Event}

theorem dispatch_window {req : Request} {srv : Rpcs} {reply : Option Reply} (hclt : req.cltNonce ≠ 0)
    (hnonce : req.cltNonce = s.clt.cltNonce) (h : dispatch s.srv req = some (srv, reply)) :
    ¬ Taken s req ∧ srv.replyWindow s.clt.cltNonce = s.window ∨
      Taken s req ∧ srv.replyWindow s.clt.cltNonce = enroll s.window req.xid req.xidRep := by
  unfold Rpc.dispatch at h
  unfold Taken Sys.window
  rw [← hnonce, ← new_iff _ _ req.xidRep]
  split at h
  · next hold =>
      cases h
      refine .inl ⟨fun htaken => ?_, rfl⟩
      rcases htaken.1 with hzero | hcurrent
      · exact hold.1 hzero
      · exact hold.2 hcurrent
  · next hcurrent =>
      have hcurrent : req.srvNonce = 0 ∨ req.srvNonce = s.srv.nonce := by tauto
      split at h
      · cases h
      · rcases checkduplicate_cases (s.srv.replyWindow req.cltNonce) req.xid req.xidRep with
          ⟨_, _, _, buf, _, hcheck⟩ | hcheck | hcheck | ⟨_, hcheck⟩
        all_goals
          rw [hcheck] at h ⊢
          cases h
        · simp
        · simp
        · simp
        · simp [hcurrent]

-- A step that begins no call and takes no request. It may end the wait of a call, and what it
-- puts into xid_rep_window is the xid of a call that no longer waits.
structure Quiet (s next : Sys) : Prop where
  nonce : next.clt.cltNonce = s.clt.cltNonce
  xid : next.clt.xid = s.clt.xid
  requests : next.requests = s.requests
  window : next.window.map (·.xid) = s.window.map (·.xid)
  waiting : ∀ xid, Waiting next.clt xid → Waiting s.clt xid
  acked : next.clt.xidRepWindow = s.clt.xidRepWindow ∨
    ∃ xid, ¬ Waiting next.clt xid ∧ next.clt.xidRepWindow = updateXidRep s.clt.xidRepWindow xid

theorem gotPdu_calls (clt : Rpcc) (reply : Reply) :
    ¬ Waiting (gotPdu clt reply) reply.xid ∧
      ∀ xid, Waiting (gotPdu clt reply) xid → Waiting clt xid := by
  unfold gotPdu
  dsimp only
  split
  · next hnone => exact ⟨by simp [Waiting, hnone], fun _ hwait => hwait⟩
  · next ca hca =>
      split
      · next hdone => exact ⟨by simp [Waiting, hca, hdone], fun _ hwait => hwait⟩
      · refine ⟨by simp [Waiting], fun xid hwait => ?_⟩
        by_cases he : xid = reply.xid
        · subst he
          simp [Waiting] at hwait
        · simpa [Waiting, he] using hwait

theorem gotPdu_frame (clt : Rpcc) (reply : Reply) :
    (gotPdu clt reply).cltNonce = clt.cltNonce ∧ (gotPdu clt reply).xid = clt.xid ∧
      (gotPdu clt reply).xidRepWindow = updateXidRep clt.xidRepWindow reply.xid := by
  unfold gotPdu
  dsimp only
  split
  · exact ⟨rfl, rfl, rfl⟩
  · split
    · exact ⟨rfl, rfl, rfl⟩
    · exact ⟨rfl, rfl, rfl⟩

theorem save_window {srv srv' : Rpcs} {index : Nat} (h : save srv index = some srv') (nonce : Nat) :
    (srv'.replyWindow nonce).map (·.xid) = (srv.replyWindow nonce).map (·.xid) := by
  simp only [Rpc.save, Option.bind_eq_bind, Option.bind_eq_some_iff, Option.some.injEq] at h
  obtain ⟨job, -, result, -, rfl⟩ := h
  by_cases he : nonce = job.req.cltNonce
  · subst he
    simp only [Function.update_self]
    split
    · exact addReply_map_xid _ _ _
    · rfl
  · simp only [Function.update_of_ne he]

theorem quiet_of_step (h : Step s event next) (hcall : event.isCall = false)
    (hdispatch : ∀ req, event ≠ .dispatch req) : Quiet s next := by
  have hsame : ∀ srv : Rpcs, ∀ replies,
      (srv.replyWindow s.clt.cltNonce).map (·.xid) = s.window.map (·.xid) →
      Quiet s { s with srv := srv, replies := replies } :=
    fun srv replies hwindow => ⟨rfl, rfl, rfl, hwindow, fun _ hwait => hwait, .inl rfl⟩
  cases event with
  | call proc args => cases hcall
  | dispatch req => exact absurd rfl (hdispatch req)
  | fnReturn index result =>
      obtain ⟨srv, hreturn, rfl⟩ := fnReturn_cases h
      simp only [Rpc.fnReturn, Option.bind_eq_bind, Option.bind_eq_some_iff] at hreturn
      obtain ⟨job, -, hreturn⟩ := hreturn
      split_ifs at hreturn
      cases hreturn
      exact hsame _ _ rfl
  | save index =>
      obtain ⟨srv, hsave, rfl⟩ := save_cases h
      exact hsame _ _ (save_window hsave _)
  | send index =>
      obtain ⟨reply, -, rfl⟩ := send_cases h
      exact hsame _ _ rfl
  | gotPdu reply =>
      obtain ⟨-, rfl⟩ := gotPdu_cases h
      obtain ⟨hnonce, hxid, hwindow⟩ := gotPdu_frame s.clt reply
      obtain ⟨hdone, hwaiting⟩ := gotPdu_calls s.clt reply
      refine ⟨hnonce, hxid, rfl, ?_, hwaiting, .inr ⟨reply.xid, hdone, hwindow⟩⟩
      simp only [Sys.window, hnonce]
  | finish xid =>
      obtain ⟨clt, result, hfinish, rfl⟩ := finish_cases h
      simp only [Rpc.finish, Option.bind_eq_bind, Option.bind_eq_some_iff, Option.some.injEq, Prod.mk.injEq] at hfinish
      obtain ⟨ca, -, rfl, -⟩ := hfinish
      refine ⟨rfl, rfl, rfl, rfl, fun other hwait => ?_, .inr ⟨xid, by simp [Waiting], rfl⟩⟩
      by_cases he : other = xid
      · subst he
        simp [Waiting] at hwait
      · simpa [Waiting, he] using hwait
  | bind r =>
      obtain ⟨clt, hbind, rfl⟩ := bind_cases h
      unfold Rpc.bind at hbind
      split_ifs at hbind
      cases hbind
      exact ⟨rfl, rfl, rfl, rfl, fun _ hwait => hwait, .inl rfl⟩
  | cancel =>
      cases h
      refine ⟨rfl, rfl, rfl, rfl, fun xid hwait => ?_, .inl rfl⟩
      obtain ⟨ca, hca, hdone⟩ := hwait
      obtain ⟨old, -, rfl⟩ := Option.map_eq_some_iff.mp hca
      cases hdone

theorem waiting_call1 {clt clt' : Rpcc} {proc : Nat} {args : Bytes} {req : Request}
    (h : call1 clt proc args = some (clt', req)) (xid : Nat) :
    Waiting clt' xid ↔ xid = clt.xid ∨ Waiting clt xid := by
  obtain ⟨xidRep, -, rfl, -⟩ := call1_cases h
  by_cases he : xid = clt.xid
  · subst he
    simp [Waiting]
  · simp [Waiting, he]

-- The requests are this client's, and the server keeps its window in order.
structure Tidy (s : Sys) : Prop where
  nonce : s.clt.cltNonce ≠ 0
  requests : ∀ req ∈ s.requests, req.cltNonce = s.clt.cltNonce
  order : InOrder s.window

theorem Tidy.step (htidy : Tidy s) (h : Step s event next) : Tidy next := by
  have hother : event.isCall = false → (∀ req, event ≠ .dispatch req) → Tidy next := by
    intro hcall hdispatch
    have hquiet := quiet_of_step h hcall hdispatch
    refine ⟨hquiet.nonce ▸ htidy.nonce, ?_, ?_⟩
    · rw [hquiet.requests, hquiet.nonce]
      exact htidy.requests
    · unfold InOrder
      rw [hquiet.window]
      exact htidy.order
  cases event with
  | call proc args =>
      obtain ⟨clt, req, hcall, rfl⟩ := call_cases h
      obtain ⟨xidRep, -, rfl, rfl⟩ := call1_cases hcall
      refine ⟨htidy.nonce, fun other hmem => ?_, htidy.order⟩
      rcases List.mem_cons.mp hmem with rfl | hmem
      · rfl
      · exact htidy.requests other hmem
  | dispatch req =>
      obtain ⟨hreq, srv, reply, hdispatch, rfl⟩ := dispatch_cases h
      have hnonce := htidy.requests req hreq
      refine ⟨htidy.nonce, htidy.requests, ?_⟩
      change InOrder (srv.replyWindow s.clt.cltNonce)
      rcases dispatch_window (hnonce ▸ htidy.nonce) hnonce hdispatch with ⟨-, hsame⟩ | ⟨-, hnew⟩
      · rw [hsame]
        exact htidy.order
      · rw [hnew]
        exact inOrder_enroll htidy.order _ _
  | _ => exact hother rfl (by simp)

theorem remembers_iff (horder : InOrder s.window) :
    Remembers s ↔ ∀ xid, Waiting s.clt xid → Above (s.window.map (·.xid)) xid := by
  simp only [Remembers, forgotten_iff horder]
  refine ⟨fun h xid hwait => ?_, fun h xid _ hbelow hwait => hbelow (h xid hwait)⟩
  by_contra hbelow
  exact h xid 0 hbelow hwait

-- A step keeps waiting calls from being refused exactly when it is anchored.
theorem remembers_step (htidy : Tidy s) (hold : Remembers s) (h : Step s event next) :
    Remembers next ↔ Anchored s event := by
  have horder := (htidy.step h).order
  rw [remembers_iff horder]
  have hold := (remembers_iff htidy.order).mp hold
  have hother : event.isCall = false → (∀ req, event ≠ .dispatch req) →
      ∀ xid, Waiting next.clt xid → Above (next.window.map (·.xid)) xid := by
    intro hcall hdispatch xid hwait
    have hquiet := quiet_of_step h hcall hdispatch
    rw [hquiet.window]
    exact hold xid (hquiet.waiting xid hwait)
  cases event with
  | call proc args =>
      obtain ⟨clt, req, hcall, rfl⟩ := call_cases h
      have hwaiting := waiting_call1 hcall
      obtain ⟨xidRep, -, rfl, rfl⟩ := call1_cases hcall
      refine ⟨fun hnext => hnext s.clt.xid ((hwaiting _).mpr (.inl rfl)), fun habove xid hwait => ?_⟩
      rcases (hwaiting xid).mp hwait with rfl | hwait
      · exact habove
      · exact hold xid hwait
  | dispatch req =>
      obtain ⟨hreq, srv, reply, hdispatch, rfl⟩ := dispatch_cases h
      have hnonce := htidy.requests req hreq
      change (∀ xid, Waiting s.clt xid → Above ((srv.replyWindow s.clt.cltNonce).map (·.xid)) xid) ↔ _
      rcases dispatch_window (hnonce ▸ htidy.nonce) hnonce hdispatch with ⟨hrest, hsame⟩ | ⟨htaken, hnew⟩
      · rw [hsame]
        exact ⟨fun _ htaken => absurd htaken hrest, fun _ => hold⟩
      · simp only [hnew, above_enroll htidy.order]
        exact ⟨fun hnext _ => hnext, fun hanchored => hanchored htaken⟩
  | _ => exact ⟨fun _ => trivial, fun _ => hother rfl (by simp)⟩

end Steps

theorem reachable_tidy {cltNonce nonce : Nat} {procs : Nat → Bool} {s : Sys} (hclt : cltNonce ≠ 0)
    (hr : Reachable Step (· = start cltNonce nonce procs) s) : Tidy s := by
  refine hr.invariant Tidy ?_ fun _ _ _ htidy h => htidy.step h
  rintro s rfl
  exact ⟨hclt, by simp [start], .nil⟩

section Client

-- One turn of the compressing loop takes the front at most one further.
theorem le_front_compress {seen rest : List Nat} {front front' y : Nat}
    (horder : (seen ++ rest).Pairwise (· ≤ ·)) (hfront : seen.head? = some front)
    (hfront' : (compress seen rest).head? = some front') (hy : y ≤ front') : y ≤ front ∨ y ∈ seen ++ rest := by
  induction rest generalizing seen front with
  | nil =>
      rw [compress, hfront, Option.some.injEq] at hfront'
      exact .inl (hfront' ▸ hy)
  | cons x rest ih =>
      have hsub : (seen.dropWhile (fun front => (front + 1) % 2 ^ 32 = x)).Sublist seen := List.dropWhile_sublist _
      have hturn : ((seen.dropWhile (fun front => (front + 1) % 2 ^ 32 = x) ++ [x]) ++ rest).Sublist
          (seen ++ x :: rest) := by
        rw [List.append_assoc, List.singleton_append]
        exact hsub.append_right _
      obtain ⟨front₁, hfront₁⟩ : ∃ front₁,
          (seen.dropWhile (fun front => (front + 1) % 2 ^ 32 = x) ++ [x]).head? = some front₁ := by
        exact ⟨_, List.head?_eq_some_head (by simp)⟩
      rcases ih (horder.sublist hturn) hfront₁ hfront' with hle | hmem
      · obtain ⟨tail, rfl⟩ := List.head?_eq_some_iff.mp hfront
        by_cases hpop : (front + 1) % 2 ^ 32 = x
        · -- everything seen is at most x, and x is at most one above the old front
          have hx : front₁ ≤ x := by
            rcases List.mem_append.mp (List.mem_of_head? hfront₁) with hseen | hlast
            · have hpair := (List.pairwise_append.mp horder).2.2
              exact hpair _ (hsub.subset hseen) x List.mem_cons_self
            · exact (List.mem_singleton.mp hlast).le
          have hstep : x ≤ front + 1 := hpop ▸ Nat.mod_le _ _
          by_cases hyf : y ≤ front
          · exact .inl hyf
          · obtain rfl : y = x := by omega
            exact .inr (by simp)
        · rw [List.dropWhile_cons_of_neg (by simpa using hpop)] at hfront₁
          cases hfront₁
          exact .inl hle
      · exact .inr (hturn.subset hmem)

-- update_xid_rep keeps the order, and passes over no xid that it has not been given.
theorem updateXidRep_spec {window : List Nat} (horder : window.Pairwise (· ≤ ·)) (xid : Nat) :
    (updateXidRep window xid).Pairwise (· ≤ ·) ∧
      ∀ front' y, (updateXidRep window xid).head? = some front' → y ≤ front' →
        (∃ front, window.head? = some front ∧ y ≤ front) ∨ y = xid ∨ y ∈ window := by
  cases window with
  | nil => exact ⟨.nil, fun front' y hfront' => by cases hfront'⟩
  | cons front rest =>
      by_cases hle : xid ≤ front
      · simp only [updateXidRep, hle, if_true]
        exact ⟨horder, fun front' y hfront' hy => .inl ⟨front', hfront', hy⟩⟩
      · have hkeep : insertBefore (xid < ·) xid (front :: rest) = front :: insertBefore (xid < ·) xid rest := by
          have hlater : ¬ xid < front := by omega
          simp [insertBefore, hlater]
        have hsorted : (insertBefore (xid < ·) xid (front :: rest)).Pairwise (· ≤ ·) :=
          pairwise_insertBefore id horder xid
        simp only [updateXidRep, hle, if_false]
        rw [hkeep] at hsorted ⊢
        refine ⟨hsorted.sublist (compress_suffix [front] _).sublist, fun front' y hfront' hy => ?_⟩
        rcases le_front_compress hsorted rfl hfront' hy with hfront | hmem
        · exact .inl ⟨front, rfl, hfront⟩
        · rw [List.singleton_append, List.mem_cons, mem_insertBefore] at hmem
          rcases hmem with rfl | rfl | hmem
          · exact .inr (.inr List.mem_cons_self)
          · exact .inr (.inl rfl)
          · exact .inr (.inr (List.mem_cons_of_mem _ hmem))

end Client

section Arrivals

variable {cltNonce : Nat} {s next : Sys} {event : Event}

-- What xid_rep says in a run with fewer than 2^31 calls: all calls up to it have finished.
structure Acked (s : Sys) : Prop where
  order : s.clt.xidRepWindow.Pairwise (· ≤ ·)
  finished : ∀ xid ∈ s.clt.xidRepWindow, ¬ Waiting s.clt xid
  front : ∀ front, s.clt.xidRepWindow.head? = some front → ∀ xid, Waiting s.clt xid → front < xid
  requests : ∀ req ∈ s.requests, ∀ xid, Waiting s.clt xid → req.xidRep < xid
  entries : ∀ xid ∈ s.window.map (·.xid), xid < s.clt.xid

theorem Acked.quiet (h : Acked s) (hquiet : Quiet s next) : Acked next := by
  have hentries : ∀ xid ∈ next.window.map (·.xid), xid < next.clt.xid := by
    rw [hquiet.window, hquiet.xid]
    exact h.entries
  have hrequests : ∀ req ∈ next.requests, ∀ xid, Waiting next.clt xid → req.xidRep < xid := by
    intro req hreq xid hwait
    exact h.requests req (hquiet.requests ▸ hreq) xid (hquiet.waiting xid hwait)
  rcases hquiet.acked with hsame | ⟨xid, hdone, hwindow⟩
  · refine ⟨hsame ▸ h.order, ?_, ?_, hrequests, hentries⟩
    · rw [hsame]
      exact fun y hmem hwait => h.finished y hmem (hquiet.waiting y hwait)
    · rw [hsame]
      exact fun front hfront y hwait => h.front front hfront y (hquiet.waiting y hwait)
  · obtain ⟨horder, hpassed⟩ := updateXidRep_spec h.order xid
    have hfinished : ∀ y, y = xid ∨ y ∈ s.clt.xidRepWindow → ¬ Waiting next.clt y := by
      rintro y (rfl | hmem) hwait
      · exact hdone hwait
      · exact h.finished y hmem (hquiet.waiting y hwait)
    refine ⟨hwindow ▸ horder, ?_, ?_, hrequests, hentries⟩
    · rw [hwindow]
      exact fun y hmem => hfinished y (mem_updateXidRep hmem)
    · rw [hwindow]
      intro front' hfront' y hwait
      by_contra hle
      rcases hpassed front' y hfront' (Nat.le_of_not_lt hle) with ⟨front, hfront, hy⟩ | hgiven
      · have hlt := h.front front hfront y (hquiet.waiting y hwait)
        omega
      · exact hfinished y hgiven hwait

theorem Acked.step (h : Acked s) (hinv : Inv cltNonce s) (htidy : Tidy s) (hbound : Bounded s event)
    (hs : Step s event next) : Acked next := by
  cases event with
  | call proc args =>
      obtain ⟨clt, req, hcall, rfl⟩ := call_cases hs
      have hwaiting := waiting_call1 hcall
      obtain ⟨xidRep, hfront, rfl, rfl⟩ := call1_cases hcall
      have hxid : (s.clt.xid + 1) % 2 ^ 32 = s.clt.xid + 1 := by
        have hlt : s.clt.xid < 2 ^ 31 := hbound rfl
        exact Nat.mod_eq_of_lt (by omega)
      have hwindow : ∀ x ∈ s.clt.xidRepWindow, ∀ xid, xid = s.clt.xid ∨ Waiting s.clt xid → x ≠ xid := by
        rintro x hmem xid (rfl | hwait) rfl
        · exact absurd (hinv.window _ hmem) (lt_irrefl _)
        · exact h.finished x hmem hwait
      have hahead : ∀ front, s.clt.xidRepWindow.head? = some front → ∀ xid,
          xid = s.clt.xid ∨ Waiting s.clt xid → front < xid := by
        rintro front hhead xid (rfl | hwait)
        · exact hinv.window front (List.mem_of_head? hhead)
        · exact h.front front hhead xid hwait
      refine ⟨h.order, ?_, ?_, ?_, ?_⟩
      · exact fun xid hmem hwait => hwindow xid hmem xid ((hwaiting xid).mp hwait) rfl
      · exact fun front hhead xid hwait => hahead front hhead xid ((hwaiting xid).mp hwait)
      · intro req hmem xid hwait
        have hwait := (hwaiting xid).mp hwait
        rcases List.mem_cons.mp hmem with rfl | hmem
        · exact hahead xidRep hfront xid hwait
        · rcases hwait with rfl | hwait
          · obtain ⟨-, hrep, hlt⟩ := hinv.requests req hmem
            omega
          · exact h.requests req hmem xid hwait
      · intro xid hmem
        change xid < (s.clt.xid + 1) % 2 ^ 32
        rw [hxid]
        exact Nat.lt_succ_of_lt (h.entries xid hmem)
  | dispatch req =>
      obtain ⟨hreq, srv, reply, hdispatch, rfl⟩ := dispatch_cases hs
      have hnonce := htidy.requests req hreq
      refine ⟨h.order, h.finished, h.front, h.requests, ?_⟩
      change ∀ xid ∈ (srv.replyWindow s.clt.cltNonce).map (·.xid), xid < s.clt.xid
      rcases dispatch_window (hnonce ▸ htidy.nonce) hnonce hdispatch with ⟨-, hsame⟩ | ⟨-, hnew⟩
      · rw [hsame]
        exact h.entries
      · rw [hnew]
        intro xid hmem
        obtain ⟨entry, hentry, rfl⟩ := List.mem_map.mp hmem
        rcases mem_enroll hentry with rfl | hold
        · exact (hinv.requests req hreq).2.2
        · exact h.entries _ (List.mem_map_of_mem hold)
  | _ => exact h.quiet (quiet_of_step hs rfl (by simp))

-- The server has the entry of xid_rep, or no call before the new request is waiting.
def Arrived (s : Sys) : Event → Prop
  | .dispatch req => Taken s req →
      req.xidRep ∈ s.window.map (·.xid) ∨ ∀ xid < req.xid, ¬ Waiting s.clt xid
  | _ => True

theorem anchored_of_arrived (h : Acked s) (hinv : Inv cltNonce s) (hs : Step s event next)
    (harrived : Arrived s event) : Anchored s event := by
  cases event with
  | call proc args =>
      cases hwindow : s.window.map (·.xid) with
      | nil => exact .inl hwindow
      | cons xid rest =>
          have hmem : xid ∈ s.window.map (·.xid) := by simp [hwindow]
          exact .inr ⟨xid, hmem, (h.entries xid hmem).le⟩
  | dispatch req =>
      have hreq : req ∈ s.requests := (dispatch_cases hs).1
      intro htaken xid hwait
      rcases harrived htaken with hentry | hfirst
      · exact .inr ⟨req.xidRep, by simp [kept, hentry], (h.requests req hreq xid hwait).le⟩
      · have hrep := (hinv.requests req hreq).2.1.le
        refine .inr ⟨req.xid, by simp [kept, hrep], ?_⟩
        by_contra hlt
        exact hfirst xid (by omega) hwait
  | _ => trivial

-- A run with fewer than 2^31 calls is anchored if the server has the entry of each xid_rep it is
-- told, as it has when no call times out before its request arrives.
theorem anchored_run {nonce : Nat} {procs : Nat → Bool} {events : List Event} (hclt : cltNonce ≠ 0)
    (hrun : Run (Guarded (fun s event => Bounded s event ∧ Arrived s event) Step)
      (· = start cltNonce nonce procs) events s) :
    Run (Guarded Anchored Step) (· = start cltNonce nonce procs) events s ∧ Acked s := by
  induction hrun with
  | start hinit =>
      obtain rfl := hinit
      refine ⟨.start rfl, by simp [start], ?_, ?_, by simp [start], by simp [start, Sys.window]⟩
      · rintro xid - ⟨ca, hca, -⟩
        cases hca
      · rintro front - xid ⟨ca, hca, -⟩
        cases hca
  | @extend events s next event run hmove ih =>
      obtain ⟨hanchored, hacked⟩ := ih
      obtain ⟨⟨hbound, harrived⟩, hs⟩ := hmove
      have hinv : Inv cltNonce s := reachable_inv hclt ⟨events, run.mono fun _ _ _ hmove => ⟨hmove.1.1, hmove.2⟩⟩
      have htidy := reachable_tidy hclt ⟨events, run.mono fun _ _ _ hmove => hmove.2⟩
      exact ⟨.extend hanchored ⟨anchored_of_arrived hacked hinv hs harrived, hs⟩, hacked.step hinv htidy hbound hs⟩

end Arrivals

-- No waiting call is ever refused in a run exactly when all its steps are anchored.
theorem forgotten_only_finished (cltNonce nonce : Nat) (procs : Nat → Bool) (hclt : cltNonce ≠ 0)
    (events : List Event) (s : Sys) (hrun : Run Step (· = start cltNonce nonce procs) events s) :
    (∀ before after mid, events = before ++ after →
      Run Step (· = start cltNonce nonce procs) before mid → Remembers mid) ↔
      Run (Guarded Anchored Step) (· = start cltNonce nonce procs) events s := by
  refine hrun.guarded_iff ?_ ?_ ?_ ?_
  · rintro first second rfl rfl
    rfl
  · intro state event first second h h'
    exact Option.some.inj (h.symm.trans h')
  · rintro state rfl xid xidRep - ⟨ca, hca, -⟩
    cases hca
  · intro state event next hr hold h
    exact remembers_step (reachable_tidy hclt hr) hold h

instance (clt : Rpcc) (xid : Nat) : Decidable (Waiting clt xid) :=
  decidable_of_iff ((clt.calls xid).any (·.done.isNone) = true) (by
    cases h : clt.calls xid <;> simp [Waiting, h])

instance (s : Sys) (req : Request) : Decidable (Taken s req) :=
  inferInstanceAs (Decidable (_ ∧ ¬ _))

instance (s : Sys) : (event : Event) → Decidable (Arrived s event)
  | .dispatch req => inferInstanceAs (Decidable (Taken s req →
      req.xidRep ∈ s.window.map (·.xid) ∨ ∀ xid < req.xid, ¬ Waiting s.clt xid))
  | .call _ _ | .fnReturn _ _ | .save _ | .send _ | .gotPdu _ | .finish _ | .bind _ | .cancel =>
      inferInstanceAs (Decidable True)

-- After the bind two calls are under way, and the second request arrives first.
def reordered : List Event :=
  let bindReq : Request := { xid := 1, proc := BIND, cltNonce := 9, srvNonce := 0, xidRep := 0, args := packUint 0 }
  let bound : Result := { ret := 0, out := packUint 7 }
  [.call BIND (packUint 0), .dispatch bindReq, .fnReturn 0 bound, .save 0, .send 0,
    .gotPdu { xid := 1, result := bound }, .finish 1, .bind 7, .call 2 [], .call 2 [],
    .dispatch { xid := 3, proc := 2, cltNonce := 9, srvNonce := 7, xidRep := 1, args := [] },
    .dispatch { xid := 2, proc := 2, cltNonce := 9, srvNonce := 7, xidRep := 1, args := [] }]

theorem forgotten_only_finished_reordered : ∃ s : Sys, s.window.map (·.xid) = [1, 2, 3] ∧
    Waiting s.clt 2 ∧ Waiting s.clt 3 ∧ Remembers s := by
  have hrun : (execute (fun s event => if Bounded s event ∧ Arrived s event then step s event else none)
      (start 9 7 fun _ => true) reordered).map
        (fun s => (s.window.map (·.xid), decide (Waiting s.clt 2), decide (Waiting s.clt 3))) =
      some ([1, 2, 3], true, true) := by
    decide +kernel
  obtain ⟨s, hs, hfields⟩ := Option.map_eq_some_iff.mp hrun
  simp only [Prod.mk.injEq, decide_eq_true_eq] at hfields
  obtain ⟨hwindow, htwo, hthree⟩ := hfields
  have hguarded : Run (Guarded (fun s event => Bounded s event ∧ Arrived s event) Step)
      (· = start 9 7 fun _ => true) ([] ++ reordered) s := Run.executed (.start rfl) hs
  have hplain : Run Step (· = start 9 7 fun _ => true) reordered s := hguarded.mono fun _ _ _ hmove => hmove.2
  have hanchored := (anchored_run (by decide) hguarded).1
  exact ⟨s, hwindow, htwo, hthree, (forgotten_only_finished 9 7 (fun _ => true) (by decide) reordered s hplain).mpr
    hanchored reordered [] s (by simp) hplain⟩

-- Call 2 times out and its request never arrives. Of the two calls after it the second one's
-- request arrives first and makes the server forget entry 1: entry 4 is then the front.
def overtaken : List Event :=
  let bindReq : Request := { xid := 1, proc := BIND, cltNonce := 9, srvNonce := 0, xidRep := 0, args := packUint 0 }
  let bound : Result := { ret := 0, out := packUint 7 }
  [.call BIND (packUint 0), .dispatch bindReq, .fnReturn 0 bound, .save 0, .send 0,
    .gotPdu { xid := 1, result := bound }, .finish 1, .bind 7, .call 2 [], .finish 2, .call 2 [], .call 2 [],
    .dispatch { xid := 4, proc := 2, cltNonce := 9, srvNonce := 7, xidRep := 2, args := [] }]

theorem waiting_call_forgotten : ∃ s : Sys,
    Run (Guarded Bounded Step) (· = start 9 7 fun _ => true) overtaken s ∧ Waiting s.clt 3 ∧
      ∃ req ∈ s.requests, req.xid = 3 ∧
        (checkduplicateAndUpdate (s.srv.replyWindow req.cltNonce) req.xid req.xidRep).1 = .FORGOTTEN := by
  have hrun : (execute (fun s event => if Bounded s event then step s event else none)
      (start 9 7 fun _ => true) overtaken).map
        (fun s => (decide (Waiting s.clt 3), s.requests.find? (·.xid = 3), s.srv.replyWindow 9)) =
      some (true, some { xid := 3, proc := 2, cltNonce := 9, srvNonce := 7, xidRep := 2, args := [] },
        [{ xid := 4 }]) := by
    decide +kernel
  obtain ⟨s, hs, hfields⟩ := Option.map_eq_some_iff.mp hrun
  simp only [Prod.mk.injEq, decide_eq_true_eq] at hfields
  obtain ⟨hwaiting, hreq, hwindow⟩ := hfields
  have hguarded : Run (Guarded Bounded Step) (· = start 9 7 fun _ => true) ([] ++ overtaken) s :=
    Run.executed (.start rfl) hs
  refine ⟨s, hguarded, hwaiting, _, List.mem_of_find?_eq_some hreq, rfl, ?_⟩
  rw [hwindow]
  decide

end CseLabs.Rpc
