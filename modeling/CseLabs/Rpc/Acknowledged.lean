import CseLabs.Rpc.Forgotten
import Mathlib.Order.Bounds.Basic

namespace CseLabs.Rpc

section Window

theorem compress_ne_nil {seen : List Nat} (h : seen ≠ []) (rest : List Nat) : compress seen rest ≠ [] := by
  induction rest generalizing seen with
  | nil => exact h
  | cons x rest ih => exact ih (by simp)

-- The xid after the front is not there.
def Gap (window : List Nat) : Prop := ∀ front, window.head? = some front → front + 1 ∉ window

-- One turn of the loop. When the front goes, everything seen so far is equal to it and goes too.
theorem gap_turn {seen : List Nat} {x : Nat} (horder : (seen ++ [x]).Pairwise (· ≤ ·))
    (hbound : ∀ y ∈ seen, y + 1 < 2 ^ 32) (hgap : Gap seen) :
    Gap (seen.dropWhile (fun front => (front + 1) % 2 ^ 32 = x) ++ [x]) := by
  cases seen with
  | nil =>
      intro front hfront
      cases hfront
      simp
  | cons front tail =>
      obtain ⟨hseen, -, hlast⟩ := List.pairwise_append.mp horder
      have hfront : (front + 1) % 2 ^ 32 = front + 1 := Nat.mod_eq_of_lt (hbound front List.mem_cons_self)
      by_cases hpop : front + 1 = x
      · have hall : ∀ y ∈ front :: tail, y = front := by
          intro y hy
          have hlo : front ≤ y := by
            rcases List.mem_cons.mp hy with rfl | hmem
            · exact le_rfl
            · exact (List.pairwise_cons.mp hseen).1 y hmem
          have hhi : y ≤ x := hlast y hy x List.mem_cons_self
          have hne : y ≠ front + 1 := by
            rintro rfl
            exact hgap front rfl hy
          omega
        have hnil : (front :: tail).dropWhile (fun front => (front + 1) % 2 ^ 32 = x) = [] := by
          rw [List.dropWhile_eq_nil_iff]
          intro y hy
          rw [hall y hy, hfront, hpop]
          simp
        rw [hnil]
        intro first hfirst
        cases hfirst
        simp
      · have hstay : ¬ (front + 1) % 2 ^ 32 = x := by rwa [hfront]
        rw [List.dropWhile_cons_of_neg (by simpa using hstay)]
        intro first hfirst
        cases hfirst
        simp only [List.mem_append, List.mem_singleton, not_or]
        exact ⟨hgap front rfl, hpop⟩

theorem gap_compress {seen rest : List Nat} (horder : (seen ++ rest).Pairwise (· ≤ ·))
    (hbound : ∀ y ∈ seen ++ rest, y + 1 < 2 ^ 32) (hgap : Gap seen) : Gap (compress seen rest) := by
  induction rest generalizing seen with
  | nil => exact hgap
  | cons x rest ih =>
      have hturn : ((seen.dropWhile (fun front => (front + 1) % 2 ^ 32 = x) ++ [x]) ++ rest).Sublist
          (seen ++ x :: rest) := by
        rw [List.append_assoc, List.singleton_append]
        exact (List.dropWhile_sublist _).append_right _
      have hfirst : (seen ++ [x]).Sublist (seen ++ x :: rest) :=
        (List.singleton_sublist.mpr List.mem_cons_self).append_left seen
      refine ih (horder.sublist hturn) (fun y hy => hbound y (hturn.subset hy)) ?_
      exact gap_turn (horder.sublist hfirst) (fun y hy => hbound y (List.mem_append_left _ hy)) hgap

-- The window when the given xids have been reported: all of them up to the front, and no more in
-- a row.
structure Exact (given : List Nat) (front : Nat) (window : List Nat) : Prop where
  head : window.head? = some front
  order : window.Pairwise (· ≤ ·)
  gap : Gap window
  members : ∀ xid ∈ window, xid = 0 ∨ xid ∈ given
  passed : ∀ xid, 1 ≤ xid → xid ≤ front → xid ∈ given
  kept : ∀ xid ∈ given, xid ≤ front ∨ xid ∈ window

theorem Exact.isGreatest {given window : List Nat} {front : Nat} (h : Exact given front window) :
    IsGreatest {k | ∀ xid, 1 ≤ xid → xid ≤ k → xid ∈ given} front := by
  refine ⟨h.passed, fun k hk => ?_⟩
  by_contra hlt
  rcases h.kept (front + 1) (hk (front + 1) (by omega) (by omega)) with hle | hmem
  · omega
  · exact h.gap front h.head hmem

-- Whatever compress takes away is not above the front that is left.
theorem mem_compress_or_le {seen rest : List Nat} {front y : Nat} (horder : (seen ++ rest).Pairwise (· ≤ ·))
    (hfront : (compress seen rest).head? = some front) (hy : y ∈ seen ++ rest) :
    y ≤ front ∨ y ∈ compress seen rest := by
  obtain ⟨dropped, hdropped⟩ := compress_suffix seen rest
  rw [← hdropped] at hy horder
  rcases List.mem_append.mp hy with hmem | hmem
  · exact .inl ((List.pairwise_append.mp horder).2.2 y hmem front (List.mem_of_head? hfront))
  · exact .inr hmem

-- What compress makes of a sorted list behind a front up to which everything has been reported.
theorem exact_compress {given more : List Nat} {front : Nat} (horder : ([front] ++ more).Pairwise (· ≤ ·))
    (hbound : ∀ y ∈ [front] ++ more, y + 1 < 2 ^ 32) (hmembers : ∀ y ∈ [front] ++ more, y = 0 ∨ y ∈ given)
    (hpassed : ∀ y, 1 ≤ y → y ≤ front → y ∈ given) (hkept : ∀ y ∈ given, y ≤ front ∨ y ∈ [front] ++ more) :
    ∃ front', front ≤ front' ∧ Exact given front' (compress [front] more) := by
  obtain ⟨front', hfront'⟩ : ∃ front', (compress [front] more).head? = some front' :=
    ⟨_, List.head?_eq_some_head (compress_ne_nil (by simp) _)⟩
  have hsub := (compress_suffix [front] more).sublist
  have hfront : front ≤ front' := by
    rcases List.mem_cons.mp (hsub.subset (List.mem_of_head? hfront')) with rfl | hmem
    · exact le_rfl
    · exact (List.pairwise_cons.mp horder).1 front' hmem
  refine ⟨front', hfront, hfront', horder.sublist hsub, ?_, fun y hy => hmembers y (hsub.subset hy), ?_, ?_⟩
  · refine gap_compress horder hbound fun first hfirst => ?_
    cases hfirst
    simp
  · intro y hy hyf
    rcases le_front_compress horder rfl hfront' hyf with hold | hmem
    · exact hpassed y hy hold
    · exact (hmembers y hmem).resolve_left (by omega)
  · intro y hy
    rcases hkept y hy with hlow | hmem
    · exact .inl (hlow.trans hfront)
    · exact mem_compress_or_le horder hfront' hmem

theorem Exact.update {given window : List Nat} {front xid : Nat} (h : Exact given front window)
    (hgiven : ∀ y ∈ given, y < 2 ^ 32 - 1) (hxid : xid < 2 ^ 32 - 1) :
    ∃ front', front ≤ front' ∧ Exact (given ++ [xid]) front' (updateXidRep window xid) := by
  obtain ⟨rest, rfl⟩ := List.head?_eq_some_iff.mp h.head
  have hmore : ∀ y ∈ given, y ∈ given ++ [xid] := fun y hy => List.mem_append_left _ hy
  by_cases hle : xid ≤ front
  · rw [updateXidRep, if_pos hle]
    refine ⟨front, le_rfl, h.head, h.order, h.gap, fun y hy => (h.members y hy).imp_right (hmore y),
      fun y hy hyf => hmore y (h.passed y hy hyf), fun y hy => ?_⟩
    rcases List.mem_append.mp hy with hold | hnew
    · exact h.kept y hold
    · exact .inl (List.mem_singleton.mp hnew ▸ hle)
  · have hkeep : insertBefore (xid < ·) xid (front :: rest) = [front] ++ insertBefore (xid < ·) xid rest := by
      have hlater : ¬ xid < front := by omega
      simp [insertBefore, hlater]
    have hall : ∀ y, y ∈ [front] ++ insertBefore (xid < ·) xid rest ↔ y = xid ∨ y ∈ front :: rest := by
      intro y
      rw [← hkeep]
      exact mem_insertBefore
    have hmembers : ∀ y, y ∈ [front] ++ insertBefore (xid < ·) xid rest → y = 0 ∨ y ∈ given ++ [xid] := by
      intro y hy
      rcases (hall y).mp hy with rfl | hold
      · exact .inr (by simp)
      · exact (h.members y hold).imp_right (hmore y)
    have hsorted : ([front] ++ insertBefore (xid < ·) xid rest).Pairwise (· ≤ ·) := by
      rw [← hkeep]
      exact pairwise_insertBefore id h.order xid
    rw [updateXidRep, if_neg hle, hkeep]
    refine exact_compress hsorted ?_ hmembers (fun y hy hyf => hmore y (h.passed y hy hyf)) ?_
    · intro y hy
      rcases hmembers y hy with rfl | hmem
      · decide
      · rcases List.mem_append.mp hmem with hold | hnew
        · have hlt := hgiven y hold
          omega
        · rw [List.mem_singleton.mp hnew]
          omega
    · intro y hy
      rcases List.mem_append.mp hy with hold | hnew
      · exact (h.kept y hold).imp_right fun hmem => (hall y).mpr (.inr hmem)
      · exact .inr ((hall y).mpr (.inl (List.mem_singleton.mp hnew)))

-- xid_rep_window_ after these calls of update_xid_rep, from the window of a new rpcc.
def report (xids : List Nat) : List Nat := xids.foldl updateXidRep [0]

theorem report_append (xids : List Nat) (xid : Nat) : report (xids ++ [xid]) = updateXidRep (report xids) xid := by
  simp [report]

theorem exact_report {xids : List Nat} (h : ∀ xid ∈ xids, xid < 2 ^ 32 - 1) :
    ∃ front, Exact xids front (report xids) := by
  induction xids using List.reverseRecOn with
  | nil =>
      refine ⟨0, rfl, by simp [report], ?_, by simp [report], by omega, by simp⟩
      intro front hfront
      cases hfront
      simp [report]
  | append_singleton xids xid ih =>
      have hbefore : ∀ y ∈ xids, y < 2 ^ 32 - 1 := fun y hy => h y (List.mem_append_left _ hy)
      obtain ⟨front, hexact⟩ := ih hbefore
      obtain ⟨front', -, hexact'⟩ := hexact.update hbefore (h xid (by simp))
      exact ⟨front', report_append xids xid ▸ hexact'⟩

theorem front_mono {earlier later : List Nat} {front front' : Nat} (h : ∀ xid ∈ earlier ++ later, xid < 2 ^ 32 - 1)
    (hfront : (report earlier).head? = some front) (hfront' : (report (earlier ++ later)).head? = some front') :
    front ≤ front' := by
  induction later using List.reverseRecOn generalizing front' with
  | nil =>
      rw [List.append_nil, hfront, Option.some.injEq] at hfront'
      exact hfront'.le
  | append_singleton later xid ih =>
      rw [← List.append_assoc] at h hfront'
      have hbefore : ∀ y ∈ earlier ++ later, y < 2 ^ 32 - 1 := fun y hy => h y (List.mem_append_left _ hy)
      obtain ⟨mid, hexact⟩ := exact_report hbefore
      obtain ⟨last, hle, hlast⟩ := hexact.update hbefore (h xid (by simp))
      rw [report_append, hlast.head, Option.some.injEq] at hfront'
      exact (ih hbefore hexact.head).trans (hfront' ▸ hle)

end Window

section Calls

variable {s next : Sys} {event : Event}

-- Fewer than 2^32 - 2 calls: no call gets the last xid, and xid_ does not come around to 0.
def InRange (s : Sys) (event : Event) : Prop := event.isCall → s.clt.xid < 2 ^ 32 - 1

instance (s : Sys) (event : Event) : Decidable (InRange s event) :=
  inferInstanceAs (Decidable (event.isCall → s.clt.xid < 2 ^ 32 - 1))

def Used (s : Sys) (xid : Nat) : Prop := 1 ≤ xid ∧ xid < s.clt.xid

-- Every xid in the system is one that call1 has given out.
structure Numbered (s : Sys) : Prop where
  first : 1 ≤ s.clt.xid
  bound : s.clt.xid < 2 ^ 32
  calls : ∀ xid, s.clt.calls xid ≠ none → Used s xid
  requests : ∀ req ∈ s.requests, Used s req.xid
  jobs : ∀ job ∈ s.srv.jobs, Used s job.req.xid
  replies : ∀ reply ∈ s.replies, Used s reply.xid

theorem Numbered.start (cltNonce nonce : Nat) (procs : Nat → Bool) : Numbered (start cltNonce nonce procs) := by
  constructor <;> simp [Rpc.start]

theorem dispatch_jobs {srv srv' : Rpcs} {req : Request} {reply : Option Reply}
    (h : dispatch srv req = some (srv', reply)) :
    (∀ job ∈ srv'.jobs, job ∈ srv.jobs ∨ job.req = req) ∧ ∀ answer ∈ reply, answer.xid = req.xid := by
  unfold Rpc.dispatch at h
  split at h
  · cases h
    exact ⟨fun _ hjob => .inl hjob, by simp⟩
  · split at h
    · cases h
    · split at h
      · rcases checkduplicate_cases (srv.replyWindow req.cltNonce) req.xid req.xidRep with
          ⟨_, _, _, buf, _, hcheck⟩ | hcheck | hcheck | ⟨_, hcheck⟩
        all_goals
          rw [hcheck] at h
          cases h
        · exact ⟨fun _ hjob => .inl hjob, by simp⟩
        · exact ⟨fun _ hjob => .inl hjob, by simp⟩
        · exact ⟨fun _ hjob => .inl hjob, by simp⟩
        · refine ⟨fun job hjob => ?_, by simp⟩
          exact (List.mem_append.mp hjob).imp_right fun hnew => by rw [List.mem_singleton.mp hnew]
      · cases h
        refine ⟨fun job hjob => ?_, by simp⟩
        exact (List.mem_append.mp hjob).imp_right fun hnew => by rw [List.mem_singleton.mp hnew]

theorem gotPdu_known (clt : Rpcc) (reply : Reply) (xid : Nat) (h : (gotPdu clt reply).calls xid ≠ none) :
    clt.calls xid ≠ none := by
  unfold gotPdu at h
  dsimp only at h
  split at h
  · exact h
  · next ca hca =>
      split at h
      · exact h
      · by_cases he : xid = reply.xid
        · subst he
          simp [hca]
        · simpa [he] using h

-- Executions that go on stay with their requests.
theorem Numbered.setJobs (h : Numbered s) {srv : Rpcs}
    (hjobs : ∀ job ∈ srv.jobs, ∃ old ∈ s.srv.jobs, old.req = job.req) : Numbered { s with srv := srv } :=
  { h with
    jobs := fun job hjob => by
      obtain ⟨old, hold, hreq⟩ := hjobs job hjob
      exact hreq ▸ h.jobs old hold }

theorem Numbered.step (h : Numbered s) (hrange : InRange s event) (hs : Step s event next) : Numbered next := by
  cases event with
  | call proc args =>
      obtain ⟨clt, req, hcall, rfl⟩ := call_cases hs
      obtain ⟨xidRep, -, rfl, rfl⟩ := call1_cases hcall
      have hlt : s.clt.xid < 2 ^ 32 - 1 := hrange rfl
      have hfirst := h.first
      have hxid : (s.clt.xid + 1) % 2 ^ 32 = s.clt.xid + 1 := Nat.mod_eq_of_lt (by omega)
      have hold : ∀ xid, Used s xid → 1 ≤ xid ∧ xid < s.clt.xid + 1 :=
        fun xid hused => ⟨hused.1, Nat.lt_succ_of_lt hused.2⟩
      constructor <;> simp only [Used, hxid]
      case first => omega
      case bound => omega
      case calls =>
        intro xid hxid
        by_cases he : xid = s.clt.xid
        · omega
        · rw [Function.update_of_ne he] at hxid
          exact hold xid (h.calls xid hxid)
      case requests =>
        intro req hmem
        rcases List.mem_cons.mp hmem with rfl | hmem
        · exact ⟨hfirst, Nat.lt_succ_self _⟩
        · exact hold _ (h.requests req hmem)
      case jobs => exact fun job hmem => hold _ (h.jobs job hmem)
      case replies => exact fun reply hmem => hold _ (h.replies reply hmem)
  | dispatch req =>
      obtain ⟨hreq, srv, reply, hdispatch, rfl⟩ := dispatch_cases hs
      obtain ⟨hjobs, hreply⟩ := dispatch_jobs hdispatch
      have hused := h.requests req hreq
      refine { h with jobs := fun job hjob => ?_, replies := fun answer hanswer => ?_ }
      · rcases hjobs job hjob with hold | hnew
        · exact h.jobs job hold
        · exact hnew ▸ hused
      · rcases List.mem_append.mp hanswer with hnew | hold
        · exact hreply answer (by simpa using hnew) ▸ hused
        · exact h.replies answer hold
  | fnReturn index result =>
      obtain ⟨srv, hreturn, rfl⟩ := fnReturn_cases hs
      simp only [Rpc.fnReturn, Option.bind_eq_bind, Option.bind_eq_some_iff] at hreturn
      obtain ⟨job, hget, hreturn⟩ := hreturn
      split_ifs at hreturn with hguard
      cases hreturn
      have hcont : Continues job { job with result := some result } := ⟨rfl, by simp [hguard.1]⟩
      exact h.setJobs fun moved hmoved => mem_set_req hget hcont hmoved
  | save index =>
      obtain ⟨srv, hsave, rfl⟩ := save_cases hs
      simp only [Rpc.save, Option.bind_eq_bind, Option.bind_eq_some_iff, Option.some.injEq] at hsave
      obtain ⟨job, hget, result, -, rfl⟩ := hsave
      have hcont : Continues job { job with saved := true } := ⟨rfl, fun _ hresult => hresult⟩
      exact h.setJobs fun moved hmoved => mem_set_req hget hcont hmoved
  | send index =>
      obtain ⟨reply, hsend, rfl⟩ := send_cases hs
      simp only [Rpc.send, Option.bind_eq_bind, Option.bind_eq_some_iff] at hsend
      obtain ⟨job, hget, result, -, hsend⟩ := hsend
      split_ifs at hsend
      cases hsend
      refine { h with replies := fun answer hanswer => ?_ }
      rcases List.mem_cons.mp hanswer with rfl | hold
      · exact h.jobs job (List.mem_of_getElem? hget)
      · exact h.replies answer hold
  | gotPdu reply =>
      obtain ⟨-, rfl⟩ := gotPdu_cases hs
      obtain ⟨-, hxid, -⟩ := gotPdu_frame s.clt reply
      constructor <;> simp only [Used, hxid]
      case first => exact h.first
      case bound => exact h.bound
      case calls => exact fun xid hcall => h.calls xid (gotPdu_known _ _ _ hcall)
      case requests => exact h.requests
      case jobs => exact h.jobs
      case replies => exact h.replies
  | finish xid =>
      obtain ⟨clt, result, hfinish, rfl⟩ := finish_cases hs
      simp only [Rpc.finish, Option.bind_eq_bind, Option.bind_eq_some_iff, Option.some.injEq, Prod.mk.injEq] at hfinish
      obtain ⟨ca, -, rfl, -⟩ := hfinish
      refine { h with calls := fun other hother => ?_ }
      by_cases he : other = xid
      · subst he
        simp at hother
      · exact h.calls other (by simpa [he] using hother)
  | bind r =>
      obtain ⟨clt, hbind, rfl⟩ := bind_cases hs
      unfold Rpc.bind at hbind
      split_ifs at hbind
      cases hbind
      exact { h with }
  | cancel =>
      cases hs
      refine { h with calls := fun xid hxid => h.calls xid ?_ }
      simpa [Rpc.cancel] using hxid

-- The window is what reports of finished calls have made it.
def Reported (s : Sys) : Prop :=
  ∃ xids, s.clt.xidRepWindow = report xids ∧ ∀ xid ∈ xids, Used s xid ∧ ¬ Waiting s.clt xid

-- A step that ends waits only, and reports an xid at most.
theorem Reported.quiet (h : Reported s) (hxid : next.clt.xid = s.clt.xid)
    (hwaiting : ∀ xid, Waiting next.clt xid → Waiting s.clt xid)
    (hwindow : next.clt.xidRepWindow = s.clt.xidRepWindow ∨
      ∃ xid, Used s xid ∧ ¬ Waiting next.clt xid ∧ next.clt.xidRepWindow = updateXidRep s.clt.xidRepWindow xid) :
    Reported next := by
  obtain ⟨xids, hreport, hxids⟩ := h
  have hold : ∀ xid ∈ xids, Used next xid ∧ ¬ Waiting next.clt xid := by
    intro xid hmem
    obtain ⟨hused, hdone⟩ := hxids xid hmem
    exact ⟨⟨hused.1, hxid ▸ hused.2⟩, fun hwait => hdone (hwaiting xid hwait)⟩
  rcases hwindow with hsame | ⟨xid, hused, hdone, hnew⟩
  · exact ⟨xids, hsame.trans hreport, hold⟩
  · refine ⟨xids ++ [xid], by rw [hnew, hreport, report_append], fun other hmem => ?_⟩
    rcases List.mem_append.mp hmem with hmem | hmem
    · exact hold other hmem
    · rw [List.mem_singleton.mp hmem]
      exact ⟨⟨hused.1, hxid ▸ hused.2⟩, hdone⟩

theorem Reported.step (h : Reported s) (hnumbered : Numbered s) (hrange : InRange s event) (hs : Step s event next) :
    Reported next := by
  cases event with
  | call proc args =>
      obtain ⟨clt, req, hcall, rfl⟩ := call_cases hs
      have hwaiting := waiting_call1 hcall
      obtain ⟨xidRep, -, rfl, rfl⟩ := call1_cases hcall
      obtain ⟨xids, hreport, hxids⟩ := h
      have hlt : s.clt.xid < 2 ^ 32 - 1 := hrange rfl
      refine ⟨xids, hreport, fun xid hmem => ?_⟩
      obtain ⟨hused, hdone⟩ := hxids xid hmem
      refine ⟨⟨hused.1, ?_⟩, fun hwait => ?_⟩
      · change xid < (s.clt.xid + 1) % 2 ^ 32
        rw [Nat.mod_eq_of_lt (by omega)]
        exact Nat.lt_succ_of_lt hused.2
      · rcases (hwaiting xid).mp hwait with rfl | hwait
        · exact absurd hused.2 (lt_irrefl _)
        · exact hdone hwait
  | dispatch req =>
      obtain ⟨hreq, srv, reply, hdispatch, rfl⟩ := dispatch_cases hs
      exact h
  | gotPdu reply =>
      obtain ⟨hreply, rfl⟩ := gotPdu_cases hs
      obtain ⟨-, hxid, hwindow⟩ := gotPdu_frame s.clt reply
      obtain ⟨hdone, hwaiting⟩ := gotPdu_calls s.clt reply
      exact h.quiet hxid hwaiting (.inr ⟨reply.xid, hnumbered.replies reply hreply, hdone, hwindow⟩)
  | finish xid =>
      have hquiet := quiet_of_step hs rfl (by simp)
      obtain ⟨clt, result, hfinish, rfl⟩ := finish_cases hs
      simp only [Rpc.finish, Option.bind_eq_bind, Option.bind_eq_some_iff, Option.some.injEq, Prod.mk.injEq] at hfinish
      obtain ⟨ca, hca, rfl, -⟩ := hfinish
      refine h.quiet hquiet.xid hquiet.waiting (.inr ⟨xid, hnumbered.calls xid (by simp [hca]), ?_, rfl⟩)
      simp [Waiting]
  | fnReturn index result =>
      obtain ⟨srv, -, rfl⟩ := fnReturn_cases hs
      exact h
  | save index =>
      obtain ⟨srv, -, rfl⟩ := save_cases hs
      exact h
  | send index =>
      obtain ⟨reply, -, rfl⟩ := send_cases hs
      exact h
  | bind r =>
      have hquiet := quiet_of_step hs rfl (by simp)
      obtain ⟨clt, hbind, rfl⟩ := bind_cases hs
      unfold Rpc.bind at hbind
      split_ifs at hbind
      cases hbind
      exact h.quiet rfl hquiet.waiting (.inl rfl)
  | cancel =>
      have hquiet := quiet_of_step hs rfl (by simp)
      cases hs
      exact h.quiet rfl hquiet.waiting (.inl rfl)

-- What call1 packs is below every xid that is waiting: those from 1 up to it have been reported.
theorem Reported.xidRep_lt (h : Reported s) (hnumbered : Numbered s) {proc : Nat} {args : Bytes} {clt : Rpcc}
    {req : Request} (hcall : call1 s.clt proc args = some (clt, req)) {xid : Nat} (hwait : Waiting clt xid) :
    req.xidRep < xid := by
  have hwaiting := (waiting_call1 hcall xid).mp hwait
  obtain ⟨xidRep, hhead, rfl, rfl⟩ := call1_cases hcall
  obtain ⟨xids, hreport, hxids⟩ := h
  have hbound := hnumbered.bound
  obtain ⟨front, hexact⟩ : ∃ front, Exact xids front (report xids) := by
    refine exact_report fun y hy => ?_
    have hlt := (hxids y hy).1.2
    omega
  obtain rfl : front = xidRep := by
    rw [hreport, hexact.head] at hhead
    exact Option.some.inj hhead
  have hpos : 1 ≤ xid := by
    rcases hwaiting with rfl | ⟨ca, hca, -⟩
    · exact hnumbered.first
    · exact (hnumbered.calls xid (by simp [Option.mem_def.mp hca])).1
  by_contra hle
  obtain ⟨hused, hdone⟩ := hxids xid (hexact.passed xid hpos (Nat.le_of_not_lt hle))
  rcases hwaiting with rfl | hold
  · exact absurd hused.2 (lt_irrefl _)
  · exact hdone hold

end Calls

-- The window after any reports, and what call1 makes of it.
theorem xid_rep_exact :
    (∀ xids : List Nat, (∀ xid ∈ xids, 1 ≤ xid ∧ xid < 2 ^ 32 - 1) →
      ∃ front, (report xids).head? = some front ∧ (report xids).Pairwise (· ≤ ·) ∧
        IsGreatest {k | ∀ xid, 1 ≤ xid → xid ≤ k → xid ∈ xids} front ∧
        ∀ earlier later front', xids = earlier ++ later → (report earlier).head? = some front' → front' ≤ front) ∧
    ∀ cltNonce nonce procs s, Reachable (Guarded InRange Step) (· = start cltNonce nonce procs) s →
      ∀ proc args clt req, call1 s.clt proc args = some (clt, req) →
        ∀ xid, Waiting clt xid → req.xidRep < xid := by
  constructor
  · intro xids hxids
    have hlt : ∀ xid ∈ xids, xid < 2 ^ 32 - 1 := fun xid hxid => (hxids xid hxid).2
    obtain ⟨front, hexact⟩ := exact_report hlt
    refine ⟨front, hexact.head, hexact.order, hexact.isGreatest, ?_⟩
    rintro earlier later front' rfl hfront'
    exact front_mono hlt hfront' hexact.head
  · intro cltNonce nonce procs s hr proc args clt req hcall xid hwait
    have hinv : Numbered s ∧ Reported s := by
      refine hr.invariant (fun s => Numbered s ∧ Reported s) ?_ ?_
      · rintro s rfl
        exact ⟨.start cltNonce nonce procs, [], rfl, by simp⟩
      · rintro s event next ⟨hnumbered, hreported⟩ ⟨hrange, hs⟩
        exact ⟨hnumbered.step hrange hs, hreported.step hnumbered hrange hs⟩
    exact hinv.2.xidRep_lt hinv.1 hcall hwait

-- A gap is filled after duplicates; and with two calls under way a third one begins.
theorem xid_rep_exact_filled :
    report [3, 1, 3, 2] = [3, 3] ∧ IsGreatest {k | ∀ xid, 1 ≤ xid → xid ≤ k → xid ∈ [3, 1, 3, 2]} 3 ∧
      ∃ (s : Sys) (clt : Rpcc) (req : Request), call1 s.clt 2 [] = some (clt, req) ∧
        Waiting clt 2 ∧ Waiting clt 4 ∧ req.xidRep < 2 := by
  obtain ⟨hwindow, hcalls⟩ := xid_rep_exact
  obtain ⟨front, hhead, -, hgreatest, -⟩ := hwindow [3, 1, 3, 2] (by decide)
  obtain rfl : 3 = front := Option.some.inj hhead
  refine ⟨by decide, hgreatest, ?_⟩
  have hrun : (execute (fun s event => if InRange s event then step s event else none)
      (start 9 7 fun _ => true) reordered).bind (fun s => (call1 s.clt 2 []).map fun called =>
        (decide (Waiting called.1 2), decide (Waiting called.1 4))) = some (true, true) := by
    decide +kernel
  obtain ⟨s, hs, hcall⟩ := Option.bind_eq_some_iff.mp hrun
  obtain ⟨⟨clt, req⟩, hcall, hfields⟩ := Option.map_eq_some_iff.mp hcall
  simp only [Prod.mk.injEq, decide_eq_true_eq] at hfields
  have hr : Reachable (Guarded InRange Step) (· = start 9 7 fun _ => true) s := Reachable.executed (.start rfl) hs
  exact ⟨s, clt, req, hcall, hfields.1, hfields.2, hcalls 9 7 (fun _ => true) s hr 2 [] clt req hcall 2 hfields.1⟩

end CseLabs.Rpc
