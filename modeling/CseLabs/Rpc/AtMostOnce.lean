import CseLabs.Rpc.Window

namespace CseLabs.Rpc

-- Some execution for this xid has ended with this result.
def Produced (jobs : List Job) (xid : Nat) (result : Result) : Prop :=
  ∃ job ∈ jobs, job.req.xid = xid ∧ job.result = some result

-- Executions go on and new ones start; what has been produced stays.
def Extends (jobs later : List Job) : Prop :=
  ∀ job ∈ jobs, ∃ job' ∈ later, job'.req = job.req ∧ ∀ result, job.result = some result → job'.result = some result

theorem Produced.extend {jobs later : List Job} {xid : Nat} {result : Result}
    (hext : Extends jobs later) (h : Produced jobs xid result) : Produced later xid result := by
  obtain ⟨job, hmem, rfl, hresult⟩ := h
  obtain ⟨job', hmem', hreq, hkeep⟩ := hext job hmem
  exact ⟨job', hmem', by rw [hreq], hkeep result hresult⟩

theorem Extends.append (jobs : List Job) (job : Job) : Extends jobs (jobs ++ [job]) :=
  fun old hmem => ⟨old, List.mem_append_left _ hmem, rfl, fun _ h => h⟩

-- The condition on what replaces the execution at a place.
structure Continues (job job' : Job) : Prop where
  req : job'.req = job.req
  result : ∀ result, job.result = some result → job'.result = some result

theorem Extends.set {jobs : List Job} {index : Nat} {job job' : Job}
    (hget : jobs[index]? = some job) (hcont : Continues job job') : Extends jobs (jobs.set index job') := by
  intro old hmem
  obtain ⟨place, hplace⟩ := List.mem_iff_getElem?.mp hmem
  by_cases he : place = index
  · subst place
    obtain rfl : job = old := Option.some.inj (hget.symm.trans hplace)
    have hlt := (List.getElem?_eq_some_iff.mp hget).1
    exact ⟨job', List.mem_set hlt job', hcont.req, hcont.result⟩
  · have hkeep : (jobs.set index job')[place]? = some old := by
      rw [List.getElem?_set_ne (Ne.symm he), hplace]
    exact ⟨old, List.mem_of_getElem? hkeep, rfl, fun _ h => h⟩

theorem mem_set_req {jobs : List Job} {index : Nat} {job job' : Job} {moved : Job}
    (hget : jobs[index]? = some job) (hcont : Continues job job') (h : moved ∈ jobs.set index job') :
    ∃ old ∈ jobs, old.req = moved.req := by
  rcases List.mem_or_eq_of_mem_set h with hmem | rfl
  · exact ⟨moved, hmem, rfl⟩
  · exact ⟨job, List.mem_of_getElem? hget, hcont.req.symm⟩

theorem set_map_xid {jobs : List Job} {index : Nat} {job job' : Job}
    (hget : jobs[index]? = some job) (hcont : Continues job job') :
    (jobs.set index job').map (·.req.xid) = jobs.map (·.req.xid) := by
  obtain ⟨hlt, rfl⟩ := List.getElem?_eq_some_iff.mp hget
  have hself : jobs.set index jobs[index] = jobs := List.set_getElem_self hlt
  conv_rhs => rw [← hself]
  simp only [List.map_set, hcont.req]

section Cases

variable {s next : Sys}

theorem call1_cases {clt clt' : Rpcc} {proc : Nat} {args : Bytes} {req : Request}
    (h : call1 clt proc args = some (clt', req)) :
    ∃ xidRep, clt.xidRepWindow.head? = some xidRep ∧
      clt' = { clt with xid := (clt.xid + 1) % 2 ^ 32
                        calls := Function.update clt.calls clt.xid (some { proc := proc }) } ∧
      req = { xid := clt.xid, proc := proc, cltNonce := clt.cltNonce, srvNonce := clt.srvNonce
              xidRep := xidRep, args := args } := by
  unfold call1 at h
  split_ifs at h
  simp only [Option.bind_eq_bind, Option.bind_eq_some_iff, Option.some.injEq, Prod.mk.injEq] at h
  obtain ⟨xidRep, hfront, rfl, rfl⟩ := h
  exact ⟨xidRep, hfront, rfl, rfl⟩

theorem call_cases {proc : Nat} {args : Bytes} (h : Step s (.call proc args) next) :
    ∃ clt req, call1 s.clt proc args = some (clt, req) ∧
      next = { s with clt := clt, requests := req :: s.requests } := by
  simp only [Step, step, Option.bind_eq_bind, Option.bind_eq_some_iff, Option.some.injEq] at h
  obtain ⟨⟨clt, req⟩, hcall, rfl⟩ := h
  exact ⟨clt, req, hcall, rfl⟩

theorem dispatch_cases {req : Request} (h : Step s (.dispatch req) next) :
    req ∈ s.requests ∧ ∃ srv reply, dispatch s.srv req = some (srv, reply) ∧
      next = { s with srv := srv, replies := reply.toList ++ s.replies } := by
  simp only [Step, step] at h
  split_ifs at h with hreq
  simp only [Option.bind_eq_bind, Option.bind_eq_some_iff, Option.some.injEq] at h
  obtain ⟨⟨srv, reply⟩, hdispatch, rfl⟩ := h
  exact ⟨hreq, srv, reply, hdispatch, rfl⟩

theorem fnReturn_cases {index : Nat} {result : Result} (h : Step s (.fnReturn index result) next) :
    ∃ srv, fnReturn s.srv index result = some srv ∧ next = { s with srv := srv } := by
  simp only [Step, step, Option.bind_eq_bind, Option.bind_eq_some_iff, Option.some.injEq] at h
  obtain ⟨srv, hreturn, rfl⟩ := h
  exact ⟨srv, hreturn, rfl⟩

theorem save_cases {index : Nat} (h : Step s (.save index) next) :
    ∃ srv, save s.srv index = some srv ∧ next = { s with srv := srv } := by
  simp only [Step, step, Option.bind_eq_bind, Option.bind_eq_some_iff, Option.some.injEq] at h
  obtain ⟨srv, hsave, rfl⟩ := h
  exact ⟨srv, hsave, rfl⟩

theorem send_cases {index : Nat} (h : Step s (.send index) next) :
    ∃ reply, send s.srv index = some reply ∧ next = { s with replies := reply :: s.replies } := by
  simp only [Step, step, Option.bind_eq_bind, Option.bind_eq_some_iff, Option.some.injEq] at h
  obtain ⟨reply, hsend, rfl⟩ := h
  exact ⟨reply, hsend, rfl⟩

theorem gotPdu_cases {reply : Reply} (h : Step s (.gotPdu reply) next) :
    reply ∈ s.replies ∧ next = { s with clt := gotPdu s.clt reply } := by
  simp only [Step, step] at h
  split_ifs at h with hreply
  cases h
  exact ⟨hreply, rfl⟩

theorem finish_cases {xid : Nat} (h : Step s (.finish xid) next) :
    ∃ clt result, finish s.clt xid = some (clt, result) ∧
      next = { s with clt := clt, returned := (xid, result) :: s.returned } := by
  simp only [Step, step, Option.bind_eq_bind, Option.bind_eq_some_iff, Option.some.injEq] at h
  obtain ⟨⟨clt, result⟩, hfinish, rfl⟩ := h
  exact ⟨clt, result, hfinish, rfl⟩

theorem bind_cases {r : Nat} (h : Step s (.bind r) next) :
    ∃ clt, bind s.clt r = some clt ∧ next = { s with clt := clt } := by
  simp only [Step, step, Option.bind_eq_bind, Option.bind_eq_some_iff, Option.some.injEq] at h
  obtain ⟨clt, hbind, rfl⟩ := h
  exact ⟨clt, hbind, rfl⟩

end Cases

section Invariant

-- What holds of the client, the server and the PDUs under way.
structure Inv (cltNonce : Nat) (s : Sys) : Prop where
  clt : s.clt.cltNonce = cltNonce
  bound : s.clt.xid ≤ 2 ^ 31
  window : ∀ xid ∈ s.clt.xidRepWindow, xid < s.clt.xid
  calls : ∀ xid ca, s.clt.calls xid = some ca → xid < s.clt.xid ∧
    ∀ result, ca.done = some result → 0 ≤ result.ret → Produced s.srv.jobs xid result
  requests : ∀ req ∈ s.requests, req.cltNonce = cltNonce ∧ req.xidRep < req.xid ∧ req.xid < s.clt.xid
  jobs : ∀ job ∈ s.srv.jobs, job.req ∈ s.requests
  nodup : (s.srv.jobs.map (·.req.xid)).Nodup
  covered : ∀ job ∈ s.srv.jobs, Covered (s.srv.replyWindow cltNonce) job.req.xid
  saved : ∀ reply ∈ s.srv.replyWindow cltNonce, ∀ buf, reply.buf = some buf →
    Produced s.srv.jobs reply.xid buf
  replies : ∀ reply ∈ s.replies, reply.xid < s.clt.xid ∧
    (0 ≤ reply.result.ret → Produced s.srv.jobs reply.xid reply.result)
  returned : ∀ xid result, (xid, result) ∈ s.returned → 0 ≤ result.ret → Produced s.srv.jobs xid result

variable {cltNonce : Nat} {s : Sys}

theorem start_inv (cltNonce nonce : Nat) (procs : Nat → Bool) :
    Inv cltNonce (start cltNonce nonce procs) := by
  constructor <;> simp [start]

-- A step of the server. The first three conditions are about its window and its
-- executions, the last two about what they say.
theorem Inv.serve (hinv : Inv cltNonce s) {srv : Rpcs} (hext : Extends s.srv.jobs srv.jobs)
    (hjobs : ∀ job ∈ srv.jobs, job.req ∈ s.requests) (hnodup : (srv.jobs.map (·.req.xid)).Nodup)
    (hcovered : ∀ job ∈ srv.jobs, Covered (srv.replyWindow cltNonce) job.req.xid)
    (hsaved : ∀ reply ∈ srv.replyWindow cltNonce, ∀ buf, reply.buf = some buf →
      reply ∈ s.srv.replyWindow cltNonce ∨ Produced srv.jobs reply.xid buf) :
    Inv cltNonce { s with srv := srv } where
  clt := hinv.clt
  bound := hinv.bound
  window := hinv.window
  calls xid ca hca :=
    ⟨(hinv.calls xid ca hca).1, fun result hdone hret => ((hinv.calls xid ca hca).2 result hdone hret).extend hext⟩
  requests := hinv.requests
  jobs := hjobs
  nodup := hnodup
  covered := hcovered
  saved reply hmem buf hbuf := (hsaved reply hmem buf hbuf).elim
    (fun hold => (hinv.saved reply hold buf hbuf).extend hext) id
  replies reply hmem :=
    ⟨(hinv.replies reply hmem).1, fun hret => ((hinv.replies reply hmem).2 hret).extend hext⟩
  returned xid result hmem hret := (hinv.returned xid result hmem hret).extend hext

theorem Inv.sendReply (hinv : Inv cltNonce s) {reply : Reply} (hxid : reply.xid < s.clt.xid)
    (hreply : 0 ≤ reply.result.ret → Produced s.srv.jobs reply.xid reply.result) :
    Inv cltNonce { s with replies := reply :: s.replies } :=
  { hinv with
    replies := by
      intro other hmem
      rcases List.mem_cons.mp hmem with rfl | hmem
      · exact ⟨hxid, hreply⟩
      · exact hinv.replies other hmem }

end Invariant

section Steps

variable {cltNonce : Nat} {s : Sys}

theorem Inv.call (hinv : Inv cltNonce s) {proc : Nat} {args : Bytes} {clt : Rpcc} {req : Request}
    (hbound : s.clt.xid < 2 ^ 31) (h : call1 s.clt proc args = some (clt, req)) :
    Inv cltNonce { s with clt := clt, requests := req :: s.requests } := by
  obtain ⟨xidRep, hfront, rfl, rfl⟩ := call1_cases h
  have hxid : (s.clt.xid + 1) % 2 ^ 32 = s.clt.xid + 1 := Nat.mod_eq_of_lt (by omega)
  constructor <;> simp only [hxid]
  case clt => exact hinv.clt
  case bound => omega
  case window => exact fun xid hmem => Nat.lt_succ_of_lt (hinv.window xid hmem)
  case calls =>
    intro xid ca hca
    by_cases he : xid = s.clt.xid
    · subst xid
      simp only [Function.update_self, Option.some.injEq] at hca
      subst ca
      exact ⟨Nat.lt_succ_self _, by simp⟩
    · rw [Function.update_of_ne he] at hca
      exact ⟨Nat.lt_succ_of_lt (hinv.calls xid ca hca).1, (hinv.calls xid ca hca).2⟩
  case requests =>
    intro other hmem
    rcases List.mem_cons.mp hmem with rfl | hmem
    · exact ⟨hinv.clt, hinv.window xidRep (List.mem_of_head? hfront), Nat.lt_succ_self _⟩
    · obtain ⟨hclt, hrep, hlt⟩ := hinv.requests other hmem
      exact ⟨hclt, hrep, Nat.lt_succ_of_lt hlt⟩
  case jobs => exact fun job hmem => List.mem_cons_of_mem _ (hinv.jobs job hmem)
  case nodup => exact hinv.nodup
  case covered => exact hinv.covered
  case saved => exact hinv.saved
  case replies =>
    exact fun reply hmem => ⟨Nat.lt_succ_of_lt (hinv.replies reply hmem).1, (hinv.replies reply hmem).2⟩
  case returned => exact hinv.returned

-- The request is new: none of the executions so far was for its xid.
theorem Inv.newJob (hinv : Inv cltNonce s) {req : Request} (hreq : req ∈ s.requests)
    (hnew : ¬ Covered (s.srv.replyWindow cltNonce) req.xid) {srv : Rpcs}
    (hjobs : srv.jobs = s.srv.jobs ++ [{ req := req }])
    (hwindow : srv.replyWindow cltNonce = enroll (s.srv.replyWindow cltNonce) req.xid req.xidRep) :
    Inv cltNonce { s with srv := srv } := by
  have hrep : req.xidRep ≤ req.xid := (hinv.requests req hreq).2.1.le
  refine hinv.serve ?_ ?_ ?_ ?_ ?_
  · rw [hjobs]
    exact Extends.append _ _
  · intro job hmem
    rw [hjobs, List.mem_append, List.mem_singleton] at hmem
    rcases hmem with hmem | rfl
    · exact hinv.jobs job hmem
    · exact hreq
  · rw [hjobs, List.map_append, List.map_singleton, ← List.concat_eq_append]
    refine hinv.nodup.concat ?_
    intro hold
    obtain ⟨job, hmem, hxid⟩ := List.mem_map.mp hold
    exact hnew (hxid ▸ hinv.covered job hmem)
  · intro job hmem
    rw [hwindow]
    rw [hjobs, List.mem_append, List.mem_singleton] at hmem
    refine covered_enroll hnew hrep ?_
    rcases hmem with hmem | rfl
    · exact .inr (hinv.covered job hmem)
    · exact .inl rfl
  · intro reply hmem buf hbuf
    rw [hwindow] at hmem
    rcases mem_enroll hmem with rfl | hmem
    · cases hbuf
    · exact .inl hmem

theorem Inv.dispatch (hclt : cltNonce ≠ 0) (hinv : Inv cltNonce s) {req : Request} {srv : Rpcs}
    {reply : Option Reply} (hreq : req ∈ s.requests) (h : dispatch s.srv req = some (srv, reply)) :
    Inv cltNonce { s with srv := srv, replies := reply.toList ++ s.replies } := by
  obtain ⟨hnonce, -, hxid⟩ := hinv.requests req hreq
  unfold Rpc.dispatch at h
  split at h
  · cases h
    exact hinv.sendReply hxid (by simp [OLDSRV_FAILURE])
  · split at h
    · cases h
    · rw [if_pos (hnonce ▸ hclt), hnonce] at h
      rcases checkduplicate_cases (s.srv.replyWindow cltNonce) req.xid req.xidRep with
        ⟨old, hmem, hold, buf, hbuf, hcheck⟩ | hcheck | hcheck | ⟨hnew, hcheck⟩
      all_goals
        rw [hcheck] at h
        cases h
      · rw [Function.update_eq_self]
        exact hinv.sendReply hxid fun _ => hold ▸ hinv.saved old hmem buf hbuf
      · rwa [Function.update_eq_self]
      · rw [Function.update_eq_self]
        exact hinv.sendReply hxid (by simp [ATMOSTONCE_FAILURE])
      · exact hinv.newJob hreq hnew rfl (by simp)

-- An execution goes on and may add its reply to the window.
theorem Inv.setJob (hinv : Inv cltNonce s) {index : Nat} {job : Job} (job' : Job) {srv : Rpcs}
    (hget : s.srv.jobs[index]? = some job) (hcont : Continues job job')
    (hjobs : srv.jobs = s.srv.jobs.set index job')
    (hcovered : ∀ y, Covered (s.srv.replyWindow cltNonce) y → Covered (srv.replyWindow cltNonce) y)
    (hsaved : ∀ reply ∈ srv.replyWindow cltNonce,
      reply ∈ s.srv.replyWindow cltNonce ∨ reply = { xid := job'.req.xid, buf := job'.result }) :
    Inv cltNonce { s with srv := srv } := by
  have hlt := (List.getElem?_eq_some_iff.mp hget).1
  refine hinv.serve ?_ ?_ ?_ ?_ ?_
  · rw [hjobs]
    exact Extends.set hget hcont
  · intro moved hmem
    obtain ⟨old, hold, hreq⟩ := mem_set_req hget hcont (hjobs ▸ hmem)
    exact hreq ▸ hinv.jobs old hold
  · rw [hjobs, set_map_xid hget hcont]
    exact hinv.nodup
  · intro moved hmem
    obtain ⟨old, hold, hreq⟩ := mem_set_req hget hcont (hjobs ▸ hmem)
    exact hreq ▸ hcovered _ (hinv.covered old hold)
  · intro reply hmem buf hbuf
    rcases hsaved reply hmem with hold | rfl
    · exact .inl hold
    · exact .inr ⟨job', hjobs ▸ List.mem_set hlt job', rfl, hbuf⟩

theorem Inv.fnReturn (hinv : Inv cltNonce s) {index : Nat} {result : Result} {srv : Rpcs}
    (h : fnReturn s.srv index result = some srv) : Inv cltNonce { s with srv := srv } := by
  simp only [Rpc.fnReturn, Option.bind_eq_bind, Option.bind_eq_some_iff] at h
  obtain ⟨job, hget, h⟩ := h
  split_ifs at h with hguard
  cases h
  refine hinv.setJob { job with result := some result } hget ⟨rfl, ?_⟩ rfl (fun _ hcovered => hcovered) (fun _ hmem => .inl hmem)
  simp [hguard.1]

theorem Inv.save (hinv : Inv cltNonce s) {index : Nat} {srv : Rpcs}
    (h : save s.srv index = some srv) : Inv cltNonce { s with srv := srv } := by
  simp only [Rpc.save, Option.bind_eq_bind, Option.bind_eq_some_iff, Option.some.injEq] at h
  obtain ⟨job, hget, result, hresult, rfl⟩ := h
  have hnonce : job.req.cltNonce = cltNonce :=
    (hinv.requests job.req (hinv.jobs job (List.mem_of_getElem? hget))).1
  refine hinv.setJob { job with saved := true } hget ⟨rfl, fun _ h => h⟩ rfl ?_ ?_
  · intro y hcovered
    simp only [hnonce, Function.update_self]
    split
    · exact covered_addReply hcovered
    · exact hcovered
  · intro reply hmem
    simp only [hnonce, Function.update_self] at hmem
    split at hmem
    · exact (mem_addReply hmem).symm.imp_right fun h => by rw [h, hresult]
    · exact .inl hmem

theorem Inv.send (hinv : Inv cltNonce s) {index : Nat} {reply : Reply}
    (h : send s.srv index = some reply) : Inv cltNonce { s with replies := reply :: s.replies } := by
  simp only [Rpc.send, Option.bind_eq_bind, Option.bind_eq_some_iff] at h
  obtain ⟨job, hget, result, hresult, h⟩ := h
  split_ifs at h
  cases h
  have hmem := List.mem_of_getElem? hget
  exact hinv.sendReply (hinv.requests job.req (hinv.jobs job hmem)).2.2 fun _ => ⟨job, hmem, rfl, hresult⟩

-- A step of the client that begins no call.
theorem Inv.hear (hinv : Inv cltNonce s) {clt : Rpcc} (hclt : clt.cltNonce = s.clt.cltNonce)
    (hxid : clt.xid = s.clt.xid) (hwindow : ∀ xid ∈ clt.xidRepWindow, xid < s.clt.xid)
    (hcalls : ∀ xid ca, clt.calls xid = some ca → ∃ old, s.clt.calls xid = some old ∧
      ∀ result, ca.done = some result → 0 ≤ result.ret →
        old.done = some result ∨ Produced s.srv.jobs xid result) :
    Inv cltNonce { s with clt := clt } :=
  { hinv with
    clt := hclt.trans hinv.clt
    bound := hxid ▸ hinv.bound
    window := fun xid hmem => hxid ▸ hwindow xid hmem
    calls := by
      intro xid ca hca
      obtain ⟨old, hold, hdone⟩ := hcalls xid ca hca
      refine ⟨hxid ▸ (hinv.calls xid old hold).1, fun result hresult hret => ?_⟩
      exact (hdone result hresult hret).elim (fun h => (hinv.calls xid old hold).2 result h hret) id
    requests := fun req hmem => hxid ▸ hinv.requests req hmem
    replies := fun reply hmem => hxid ▸ hinv.replies reply hmem }

theorem Inv.window_update (hinv : Inv cltNonce s) {xid : Nat} (hxid : xid < s.clt.xid) :
    ∀ x ∈ updateXidRep s.clt.xidRepWindow xid, x < s.clt.xid := by
  intro x hmem
  rcases mem_updateXidRep hmem with rfl | hmem
  · exact hxid
  · exact hinv.window x hmem

theorem Inv.gotPdu (hinv : Inv cltNonce s) {reply : Reply} (hreply : reply ∈ s.replies) :
    Inv cltNonce { s with clt := gotPdu s.clt reply } := by
  obtain ⟨hxid, hproduced⟩ := hinv.replies reply hreply
  have hwindow := hinv.window_update hxid
  unfold Rpc.gotPdu
  dsimp only
  split
  · exact hinv.hear rfl rfl hwindow fun xid ca hca => ⟨ca, hca, fun _ h _ => .inl h⟩
  · next ca hca =>
      split
      · exact hinv.hear rfl rfl hwindow fun xid ca hca => ⟨ca, hca, fun _ h _ => .inl h⟩
      · refine hinv.hear rfl rfl hwindow fun xid moved hmoved => ?_
        by_cases he : xid = reply.xid
        · subst xid
          simp only [Function.update_self, Option.some.injEq] at hmoved
          subst moved
          refine ⟨ca, hca, fun result hdone hret => .inr ?_⟩
          cases hdone
          exact hproduced hret
        · simp only [Function.update_of_ne he] at hmoved
          exact ⟨moved, hmoved, fun _ h _ => .inl h⟩

theorem Inv.giveBack (hinv : Inv cltNonce s) {xid : Nat} {result : Result}
    (h : 0 ≤ result.ret → Produced s.srv.jobs xid result) :
    Inv cltNonce { s with returned := (xid, result) :: s.returned } :=
  { hinv with
    returned := by
      intro other given hmem hret
      rcases List.mem_cons.mp hmem with heq | hmem
      · cases heq
        exact h hret
      · exact hinv.returned other given hmem hret }

theorem Inv.finish (hinv : Inv cltNonce s) {xid : Nat} {clt : Rpcc} {result : Result}
    (h : finish s.clt xid = some (clt, result)) :
    Inv cltNonce { s with clt := clt, returned := (xid, result) :: s.returned } := by
  simp only [Rpc.finish, Option.bind_eq_bind, Option.bind_eq_some_iff, Option.some.injEq, Prod.mk.injEq] at h
  obtain ⟨ca, hca, rfl, rfl⟩ := h
  obtain ⟨hxid, hdone⟩ := hinv.calls xid ca hca
  have hgiven : Inv cltNonce { s with returned := (xid, ca.done.getD { ret := TIMEOUT_FAILURE }) :: s.returned } := by
    refine hinv.giveBack fun hret => ?_
    cases hresult : ca.done with
    | none => simp [hresult, TIMEOUT_FAILURE] at hret
    | some result =>
        rw [hresult] at hret
        exact hdone result hresult hret
  refine hgiven.hear rfl rfl (hinv.window_update hxid) ?_
  intro other moved hmoved
  by_cases he : other = xid
  · simp [he] at hmoved
  · simp only [Function.update_of_ne he] at hmoved
    exact ⟨moved, hmoved, fun _ h _ => .inl h⟩

theorem Inv.bind (hinv : Inv cltNonce s) {r : Nat} {clt : Rpcc} (h : bind s.clt r = some clt) :
    Inv cltNonce { s with clt := clt } := by
  unfold Rpc.bind at h
  split_ifs at h
  cases h
  exact hinv.hear rfl rfl hinv.window fun xid ca hca => ⟨ca, hca, fun _ h _ => .inl h⟩

theorem Inv.cancel (hinv : Inv cltNonce s) : Inv cltNonce { s with clt := cancel s.clt } := by
  refine hinv.hear rfl rfl hinv.window fun xid ca hca => ?_
  obtain ⟨old, hold, rfl⟩ := Option.map_eq_some_iff.mp hca
  refine ⟨old, hold, fun result hdone hret => ?_⟩
  cases hdone
  simp [CANCEL_FAILURE] at hret

theorem step_inv (hclt : cltNonce ≠ 0) {event : Event} {next : Sys} (hinv : Inv cltNonce s)
    (hbound : Bounded s event) (h : Step s event next) : Inv cltNonce next := by
  cases event with
  | call proc args =>
      obtain ⟨clt, req, hcall, rfl⟩ := call_cases h
      exact hinv.call (hbound rfl) hcall
  | dispatch req =>
      obtain ⟨hreq, srv, reply, hdispatch, rfl⟩ := dispatch_cases h
      exact hinv.dispatch hclt hreq hdispatch
  | fnReturn index result =>
      obtain ⟨srv, hreturn, rfl⟩ := fnReturn_cases h
      exact hinv.fnReturn hreturn
  | save index =>
      obtain ⟨srv, hsave, rfl⟩ := save_cases h
      exact hinv.save hsave
  | send index =>
      obtain ⟨reply, hsend, rfl⟩ := send_cases h
      exact hinv.send hsend
  | gotPdu reply =>
      obtain ⟨hreply, rfl⟩ := gotPdu_cases h
      exact hinv.gotPdu hreply
  | finish xid =>
      obtain ⟨clt, result, hfinish, rfl⟩ := finish_cases h
      exact hinv.finish hfinish
  | bind r =>
      obtain ⟨clt, hbind, rfl⟩ := bind_cases h
      exact hinv.bind hbind
  | cancel =>
      cases h
      exact hinv.cancel

theorem reachable_inv (hclt : cltNonce ≠ 0) {nonce : Nat} {procs : Nat → Bool}
    (hr : Reachable (Guarded Bounded Step) (· = start cltNonce nonce procs) s) : Inv cltNonce s := by
  refine hr.invariant (Inv cltNonce) ?_ ?_
  · rintro state rfl
    exact start_inv cltNonce nonce procs
  · rintro state event next hinv ⟨hbound, hstep⟩
    exact step_inv hclt hinv hbound hstep

end Steps

theorem executions_le_one {jobs : List Job} (h : (jobs.map (·.req.xid)).Nodup) (xid : Nat) :
    (jobs.filter (·.req.xid = xid)).length ≤ 1 := by
  have hcount : (jobs.map (·.req.xid)).count xid = (jobs.filter (·.req.xid = xid)).length := by
    rw [List.count, List.countP_map, List.countP_eq_length_filter]
    rfl
  rw [← hcount]
  exact List.nodup_iff_count_le_one.mp h xid

theorem at_most_once {cltNonce nonce : Nat} {procs : Nat → Bool} {s : Sys} (hclt : cltNonce ≠ 0)
    (hr : Reachable (Guarded Bounded Step) (· = start cltNonce nonce procs) s) :
    (∀ xid, (s.srv.jobs.filter (·.req.xid = xid)).length ≤ 1) ∧
    ∀ xid result, (xid, result) ∈ s.returned → 0 ≤ result.ret →
      ∃ job, s.srv.jobs.filter (·.req.xid = xid) = [job] ∧ job.req ∈ s.requests ∧
        job.result = some result := by
  have hinv := reachable_inv hclt hr
  refine ⟨executions_le_one hinv.nodup, fun xid result hmem hret => ?_⟩
  obtain ⟨job, hjob, hxid, hresult⟩ := hinv.returned xid result hmem hret
  have hfilter : job ∈ s.srv.jobs.filter (·.req.xid = xid) := by simp [hjob, hxid]
  have hlength := executions_le_one hinv.nodup xid
  have hpos := List.length_pos_of_mem hfilter
  obtain ⟨only, honly⟩ := List.length_eq_one_iff.mp (le_antisymm hlength hpos)
  obtain rfl : job = only := by simpa [honly] using hfilter
  exact ⟨job, honly, hinv.jobs job hjob, hresult⟩

-- The client binds and makes a call. Both requests arrive twice, the second one a third
-- time when its reply is already there.
def retransmitted : List Event :=
  let bindReq : Request := { xid := 1, proc := BIND, cltNonce := 9, srvNonce := 0, xidRep := 0, args := packUint 0 }
  let callReq : Request := { xid := 2, proc := 2, cltNonce := 9, srvNonce := 7, xidRep := 1, args := [3] }
  let bound : Result := { ret := 0, out := packUint 7 }
  [.call BIND (packUint 0), .dispatch bindReq, .dispatch bindReq, .fnReturn 0 bound, .save 0, .send 0,
    .gotPdu { xid := 1, result := bound }, .finish 1, .bind 7,
    .call 2 [3], .dispatch callReq, .dispatch bindReq, .dispatch callReq, .fnReturn 1 { ret := 4, out := [5] },
    .save 1, .dispatch callReq, .gotPdu { xid := 2, result := { ret := 4, out := [5] } }, .finish 2]

theorem at_most_once_retransmitted : ∃ s,
    Reachable (Guarded Bounded Step) (· = start 9 7 fun _ => true) s ∧
    s.returned = [(2, { ret := 4, out := [5] }), (1, { ret := 0, out := packUint 7 })] ∧
    ∃ job, s.srv.jobs.filter (·.req.xid = 2) = [job] ∧ job.req ∈ s.requests ∧
      job.result = some { ret := 4, out := [5] } := by
  have hrun : (execute (fun s event => if Bounded s event then step s event else none)
      (start 9 7 fun _ => true) retransmitted).map (·.returned) =
      some [(2, { ret := 4, out := [5] }), (1, { ret := 0, out := packUint 7 })] := by
    decide +kernel
  obtain ⟨s, hs, hreturned⟩ := Option.map_eq_some_iff.mp hrun
  have hr : Reachable (Guarded Bounded Step) (· = start 9 7 fun _ => true) s :=
    Reachable.executed (.start rfl) hs
  exact ⟨s, hr, hreturned, (at_most_once (by decide) hr).2 2 _ (by simp [hreturned]) (by decide)⟩

end CseLabs.Rpc
