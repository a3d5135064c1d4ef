import CseLabs.Connections.Wiring

namespace CseLabs.Connections

open PollMgr (Mgr MAX_POLL_FDS)

variable {τ : Type*}

def State.ports (s : State τ) : Nat → Option Port := fun k => (s.conns k).map Conn.port

def State.kills (s : State τ) : τ → Option Nat := fun t => (s.pc t).kills

def State.removes (s : State τ) : τ → Option Nat := fun t => (s.pc t).removes

-- refno_ counts the references, every thread in a call has one, and wpdu_ belongs to the one thread that
-- has filled it.
structure Kept (pc : τ → Pc) (k : Nat) (c : Conn τ) : Prop where
  counted : c.refno = c.holders.length
  held : ∀ t, (pc t).on = some k → t ∈ c.holders
  freed : c.freed = true → c.holders = []
  owned : c.buf = true → ∃ t, (pc t).owns = some k
  owns : ∀ t, (pc t).owns = some k → c.buf = true
  single : ∀ t u, (pc t).owns = some k → (pc u).owns = some k → t = u
  idle : c.buf = false → c.sz = 0 ∧ c.solong = 0
  sane : c.dead = false → 0 ≤ c.solong ∧ c.solong ≤ c.sz

structure Inv (s : State τ) : Prop where
  wired : Wired s.mgr s.opened s.ports s.kills s.removes
  kept : ∀ k c, s.conns k = some c → Kept s.pc k c
  within : ∀ t k, (s.pc t).on = some k → ∃ c, s.conns k = some c

theorem initial_inv {pipefd : Nat} {s : State τ} (h : initial pipefd s) : Inv s := by
  obtain ⟨opened, hpipe, rfl⟩ := h
  refine ⟨⟨PollMgr.initial_inv rfl, hpipe, ?_, ?_, ?_, ?_, ?_, ?_, ?_, ?_, ?_, List.nodup_nil, ?_, ?_⟩, ?_, ?_⟩
  all_goals simp [State.ports, State.kills, State.removes, Pc.kills, Pc.removes, Pc.on, Calls, CondVar.threads]

theorem on_of_kills {p : Pc} {k : Nat} (h : p.kills = some k) : p.on = some k := by
  cases p with
  | killing sends i => exact h
  | removing sends i => exact h
  | _ => cases h

theorem on_of_owns {p : Pc} {k : Nat} (h : p.owns = some k) : p.on = some k := by
  cases p with
  | killing sends i => cases sends <;> simp_all [Pc.owns, Pc.on]
  | removing sends i => cases sends <;> simp_all [Pc.owns, Pc.on]
  | _ => simp_all [Pc.owns, Pc.on]

section Parts

variable {pc pc' : τ → Pc} {k : Nat} {c next : Conn τ} {t : τ}

-- The owner of wpdu_ stays and so does what is in it.
theorem Kept.relay (h : Kept pc k c) (howns : ∀ u, (pc' u).owns = (pc u).owns)
    (hcounted : next.refno = next.holders.length) (hheld : ∀ u, (pc' u).on = some k → u ∈ next.holders)
    (hfreed : next.freed = true → next.holders = [])
    (hwpdu : next.buf = c.buf ∧ next.sz = c.sz ∧ next.solong = c.solong) (hdead : next.dead = false → c.dead = false) :
    Kept pc' k next := by
  obtain ⟨hbuf, hsz, hsolong⟩ := hwpdu
  refine ⟨hcounted, hheld, hfreed, fun hset => ?_, fun u hu => ?_, fun u v hu hv => ?_, ?_, ?_⟩
  · obtain ⟨u, hu⟩ := h.owned (hbuf ▸ hset)
    exact ⟨u, (howns u).trans hu⟩
  · exact hbuf.trans (h.owns u ((howns u).symm.trans hu))
  · exact h.single u v ((howns u).symm.trans hu) ((howns v).symm.trans hv)
  · rw [hbuf, hsz, hsolong]
    exact h.idle
  · rw [hsz, hsolong]
    exact fun hlive => h.sane (hdead hlive)

-- A thread gives wpdu_ up, or leaves without having filled it.
theorem Kept.release (h : Kept pc k c) (hothers : ∀ u, u ≠ t → (pc u).owns ≠ some k) (hnone : (pc' t).owns = none)
    (hsame : ∀ u, u ≠ t → pc' u = pc u) (hon : (pc' t).on = none) (hcounted : next.refno = c.refno)
    (hholders : next.holders = c.holders) (hfreed : next.freed = c.freed)
    (hidle : next.buf = false ∧ next.sz = 0 ∧ next.solong = 0) : Kept pc' k next := by
  obtain ⟨hbuf, hsz, hsolong⟩ := hidle
  have hfree : ∀ u, (pc' u).owns ≠ some k := by
    intro u hu
    by_cases heq : u = t
    · subst heq
      rw [hnone] at hu
      cases hu
    · rw [hsame u heq] at hu
      exact hothers u heq hu
  refine ⟨?_, fun u hu => ?_, ?_, ?_, fun u hu => absurd hu (hfree u), fun u v hu => absurd hu (hfree u), ?_, ?_⟩
  · rw [hcounted, hholders]
    exact h.counted
  · have hne : u ≠ t := by
      rintro rfl
      rw [hon] at hu
      cases hu
    rw [hsame u hne] at hu
    exact hholders ▸ h.held u hu
  · rw [hfreed, hholders]
    exact h.freed
  · simp [hbuf]
  · exact fun _ => ⟨hsz, hsolong⟩
  · rw [hsz, hsolong]
    exact fun _ => ⟨le_rfl, le_rfl⟩

-- A thread fills wpdu_.
theorem Kept.claim (h : Kept pc k c) (hidle : c.buf = false) (howns : (pc' t).owns = some k)
    (hsame : ∀ u, u ≠ t → pc' u = pc u) (hheld : t ∈ c.holders) (hcounted : next.refno = c.refno)
    (hholders : next.holders = c.holders) (hfreed : next.freed = c.freed) (hbuf : next.buf = true)
    (hsane : next.dead = false → 0 ≤ next.solong ∧ next.solong ≤ next.sz) : Kept pc' k next := by
  have hself : ∀ u, (pc' u).owns = some k → u = t := by
    intro u hu
    by_contra hne
    rw [hsame u hne] at hu
    rw [h.owns u hu] at hidle
    cases hidle
  refine ⟨?_, fun u hu => ?_, ?_, fun _ => ⟨t, howns⟩, fun _ _ => hbuf, fun u v hu hv => ?_, ?_, hsane⟩
  · rw [hcounted, hholders]
    exact h.counted
  · rw [hholders]
    by_cases heq : u = t
    · exact heq ▸ hheld
    · rw [hsame u heq] at hu
      exact h.held u hu
  · rw [hfreed, hholders]
    exact h.freed
  · exact (hself u hu).trans (hself v hv).symm
  · simp [hbuf]

-- Another connection is not concerned.
theorem Kept.elsewhere {j : Nat} (h : Kept pc j c) (hne : j ≠ k) (hsame : ∀ u, u ≠ t → pc' u = pc u)
    (hold : (pc t).on = none ∨ (pc t).on = some k) (hnew : (pc' t).on = none ∨ (pc' t).on = some k) :
    Kept pc' j c := by
  have howns : ∀ p : Pc, p.on = none ∨ p.on = some k → p.owns ≠ some j := by
    intro p hp heq
    rw [on_of_owns heq] at hp
    simp [hne] at hp
  have hiff : ∀ u, (pc' u).owns = some j ↔ (pc u).owns = some j := by
    intro u
    by_cases heq : u = t
    · subst heq
      exact iff_of_false (howns _ hnew) (howns _ hold)
    · rw [hsame u heq]
  refine ⟨h.counted, fun u hu => ?_, h.freed, fun hset => ?_, fun u hu => h.owns u ((hiff u).mp hu),
    fun u v hu hv => h.single u v ((hiff u).mp hu) ((hiff v).mp hv), h.idle, h.sane⟩
  · have hne' : u ≠ t := by
      rintro rfl
      rw [hu] at hnew
      simp [hne] at hnew
    exact h.held u (hsame u hne' ▸ hu)
  · obtain ⟨u, hu⟩ := h.owned hset
    exact ⟨u, (hiff u).mpr hu⟩

theorem writepdu_some {io : Io} {ok : Bool} (h : c.writepdu io = some (ok, next)) :
    ∃ sz solong, next = { c with sz := sz, solong := solong } ∧
      (ok = true → c.solong ≤ c.sz → sz = c.sz ∧ 0 ≤ solong ∧ solong ≤ c.sz) := by
  unfold Conn.writepdu at h
  split at h
  · cases h
  · rename_i hpos
    have hpos : 0 ≤ c.solong := Int.not_lt.mp hpos
    split at h
    · cases h
      exact ⟨c.sz, c.solong, rfl, fun _ hle => ⟨rfl, hpos, hle⟩⟩
    · cases io with
      | wrote n =>
          cases h
          refine ⟨c.sz, _, rfl, fun _ hle => ⟨rfl, ?_, ?_⟩⟩ <;> omega
      | again =>
          cases h
          exact ⟨c.sz, c.solong, rfl, fun _ hle => ⟨rfl, hpos, hle⟩⟩
      | failed =>
          cases h
          exact ⟨0, -1, rfl, fun hok => nomatch hok⟩

theorem writepdu_isSome (c : Conn τ) (io : Io) (h : 0 ≤ c.solong) : c.writepdu io ≠ none := by
  unfold Conn.writepdu
  rw [if_neg (Int.not_lt.mpr h)]
  split
  · simp
  · cases io <;> simp

end Parts

-- The program goes on, to a state with the property.
def Outcome.Meets {σ : Type*} (inv : σ → Prop) : Outcome σ → Prop
  | .aborts => False
  | .goes next => inv next

section Uses

variable {s : State τ} {t : τ} {k : Nat} {c : Conn τ} {r : Outcome (State τ)}
variable {f : Conn τ → Option (Outcome (State τ))}

theorem use_eq (hk : s.conns k = some c) (hkept : c.freed = false) : s.use k f = f c := by
  simp [State.use, hk, hkept]

-- A thread that is in a call finds the connection.
theorem Inv.used (h : Inv s) (hon : (s.pc t).on = some k) (huse : s.use k f = some r) :
    ∃ c, s.conns k = some c ∧ c.freed = false ∧ t ∈ c.holders ∧ f c = some r := by
  obtain ⟨c, hk⟩ := h.within t k hon
  have hheld := (h.kept k c hk).held t hon
  have hkept : c.freed = false := by
    by_contra hfreed
    rw [(h.kept k c hk).freed (Bool.not_eq_false _ ▸ hfreed)] at hheld
    cases hheld
  exact ⟨c, hk, hkept, hheld, (use_eq hk hkept).symm.trans huse⟩

-- So does the poll thread in a callback.
theorem Inv.calling {write : Bool} {fd : Nat} {readable writable : List Nat} (h : Inv s)
    (hloop : s.mgr.loop = .calling write fd k readable writable) :
    ∃ c, s.conns k = some c ∧ c.freed = false ∧ c.fd = fd := by
  have hcalls : Calls fd k s.mgr.loop := by
    rw [hloop]
    exact ⟨rfl, rfl⟩
  obtain ⟨p, hp, rfl⟩ := h.wired.calling fd k hcalls
  have hkept := h.wired.not_freed hp (.inr hcalls)
  obtain ⟨c, hk, rfl⟩ := Option.map_eq_some_iff.mp hp
  exact ⟨c, hk, hkept, rfl⟩

theorem Inv.called {write : Bool} {fd : Nat} {readable writable : List Nat} (h : Inv s)
    (hloop : s.mgr.loop = .calling write fd k readable writable) (huse : s.use k f = some r) :
    ∃ c, s.conns k = some c ∧ c.freed = false ∧ c.fd = fd ∧ f c = some r := by
  obtain ⟨c, hk, hkept, hfd⟩ := h.calling hloop
  exact ⟨c, hk, hkept, hfd, (use_eq hk hkept).symm.trans huse⟩

theorem update_ports {c' : Conn τ} (hk : s.conns k = some c) (hport : c'.port = c.port) :
    Function.update s.ports k (some c'.port) = s.ports := by
  have hold : s.ports k = some c.port := congrArg (Option.map Conn.port) hk
  rw [hport, ← hold, Function.update_eq_self]

theorem Inv.others (h : Inv s) (hk : s.conns k = some c) (howns : (s.pc t).owns = some k) (u : τ) (hne : u ≠ t) :
    (s.pc u).owns ≠ some k :=
  fun hu => hne ((h.kept k c hk).single u t hu howns)

variable [DecidableEq τ]

theorem Inv.entered (h : Inv s) (henter : s.enter t k f = some r) :
    ∃ c, s.conns k = some c ∧ c.freed = false ∧ s.pc t = .out ∧ t ∈ c.holders ∧ f c = some r := by
  unfold State.enter at henter
  split at henter
  · rename_i c hk
    split at henter
    · rename_i hboth
      obtain ⟨hout, hheld⟩ := hboth
      have hkept : c.freed = false := by
        by_contra hfreed
        rw [(h.kept k c hk).freed (Bool.not_eq_false _ ▸ hfreed)] at hheld
        cases hheld
      exact ⟨c, hk, hkept, hout, hheld, (use_eq hk hkept).symm.trans henter⟩
    · cases henter
  · cases henter

theorem put_ports (s : State τ) (t : τ) (p : Pc) (k : Nat) (c : Conn τ) :
    (s.put t p k c).ports = Function.update s.ports k (some c.port) := by
  funext j
  by_cases heq : j = k
  · subst heq
    simp [State.ports, State.put]
  · simp [State.ports, State.put, Function.update_of_ne heq]

theorem update_pc {α : Type*} (f : Pc → α) (pc : τ → Pc) (t : τ) (p : Pc) :
    (fun u => f (Function.update pc t p u)) = Function.update (fun u => f (pc u)) t (f p) := by
  funext u
  by_cases heq : u = t
  · subst heq
    rw [Function.update_self, Function.update_self]
  · rw [Function.update_of_ne heq, Function.update_of_ne heq]

theorem update_pc_same {α : Type*} {f : Pc → α} {pc : τ → Pc} {p : Pc} (h : f p = f (pc t)) :
    (fun u => f (Function.update pc t p u)) = fun u => f (pc u) := by
  rw [update_pc, h]
  exact Function.update_eq_self t fun u => f (pc u)

-- A step that concerns one connection and one thread.
theorem Inv.of_put {next : State τ} {p : Pc} {c' : Conn τ} (h : Inv s)
    (hconns : next.conns = Function.update s.conns k (some c')) (hpc : next.pc = Function.update s.pc t p)
    (hold : (s.pc t).on = none ∨ (s.pc t).on = some k) (hnew : p.on = none ∨ p.on = some k)
    (hwired : Wired next.mgr next.opened next.ports next.kills next.removes) (hkept : Kept next.pc k c') :
    Inv next := by
  have hself : next.pc t = p := by rw [hpc, Function.update_self]
  have hsame : ∀ u, u ≠ t → next.pc u = s.pc u := by
    intro u hne
    rw [hpc, Function.update_of_ne hne]
  refine ⟨hwired, fun j d hd => ?_, fun u j hu => ?_⟩
  · rw [hconns] at hd
    rcases update_some hd with ⟨rfl, rfl⟩ | ⟨hne, hd⟩
    · exact hkept
    · exact (h.kept j d hd).elsewhere hne hsame hold (hself ▸ hnew)
  · rw [hconns]
    by_cases hj : j = k
    · subst hj
      exact ⟨c', Function.update_self ..⟩
    · rw [Function.update_of_ne hj]
      have hne : u ≠ t := by
        rintro rfl
        rw [hself] at hu
        rw [hu] at hnew
        simp [hj] at hnew
      exact h.within u j (hsame u hne ▸ hu)

theorem put_wired {mgr : Mgr τ Nat} {opened : Nat → Bool} {p : Pc} {c' : Conn τ} (hk : s.conns k = some c)
    (hport : c'.port = c.port) (hkills : p.kills = (s.pc t).kills) (hremoves : p.removes = (s.pc t).removes)
    (h : Wired mgr opened s.ports s.kills s.removes) :
    Wired mgr opened (s.put t p k c').ports (s.put t p k c').kills (s.put t p k c').removes := by
  have hsame : (s.put t p k c').kills = s.kills := update_pc_same hkills
  have hsame' : (s.put t p k c').removes = s.removes := update_pc_same hremoves
  rw [put_ports, update_ports hk hport, hsame, hsame']
  exact h

-- It is nothing to the poll manager.
theorem Inv.put {p : Pc} {c' : Conn τ} (h : Inv s) (hk : s.conns k = some c)
    (hold : (s.pc t).on = none ∨ (s.pc t).on = some k) (hnew : p.on = none ∨ p.on = some k) (hport : c'.port = c.port)
    (hkills : p.kills = (s.pc t).kills) (hremoves : p.removes = (s.pc t).removes)
    (hkept : Kept (Function.update s.pc t p) k c') : Inv (s.put t p k c') := by
  exact h.of_put rfl rfl hold hnew (put_wired hk hport hkills hremoves h.wired) hkept

end Uses

section Steps

variable [DecidableEq τ] {s : State τ} {t heir : τ} {k fd sz : Nat} {c : Conn τ} {io : Io} {r : Outcome (State τ)}

theorem update_owns {pc : τ → Pc} {p : Pc} (h : p.owns = (pc t).owns) (u : τ) :
    (Function.update pc t p u).owns = (pc u).owns := by
  by_cases heq : u = t
  · subst heq
    rw [Function.update_self, h]
  · rw [Function.update_of_ne heq]

theorem create_meets (h : Inv s) (hstep : create s t k fd = some r) :
    r.Meets Inv ∨ r = .aborts ∧ MAX_POLL_FDS ≤ fd := by
  unfold create at hstep
  split at hstep
  · rename_i hguard
    obtain ⟨hout, hnone, hfd⟩ := hguard
    cases hstep
    by_cases hmax : MAX_POLL_FDS ≤ fd
    · have hnot : PollMgr.addCallback s.mgr fd .rdonly k = none :=
        if_neg fun hall => absurd hall.1 (Nat.not_lt.mpr hmax)
      rw [hnot]
      exact .inr ⟨rfl, hmax⟩
    · left
      have hk : s.ports k = none := by
        rw [State.ports, Option.isNone_iff_eq_none.mp hnone]
        rfl
      have hadd : PollMgr.addCallback s.mgr fd .rdonly k = some _ :=
        PollMgr.addCallback_eq ⟨Nat.lt_of_not_le hmax, .inl (h.wired.free hfd).2.1⟩
      have hwired := h.wired.create hk hfd hadd
      rw [hadd]
      have hsame : Function.update s.pc t .out = s.pc := by
        rw [← hout, Function.update_eq_self]
      refine h.of_put (t := t) (p := .out) (k := k) rfl hsame.symm (.inl (by rw [hout]; rfl)) (.inl rfl) ?_ ?_
      · have hports := put_ports s t .out k { fd := fd, holders := [t] }
        exact hports ▸ hwired
      · have hon : ∀ u, (s.pc u).on ≠ some k := by
          intro u hu
          obtain ⟨d, hd⟩ := h.within u k hu
          rw [hd] at hnone
          cases hnone
        have howns : ∀ u, (s.pc u).owns ≠ some k := fun u hu => hon u (on_of_owns hu)
        exact ⟨rfl, fun u hu => absurd hu (hon u), by simp, by simp, fun u hu => absurd hu (howns u),
          fun u v hu => absurd hu (howns u), fun _ => ⟨rfl, rfl⟩, fun _ => ⟨le_rfl, le_rfl⟩⟩
  · cases hstep

-- A thread outside of calls gives, takes or drops references.
theorem Inv.rehold {c' : Conn τ} (h : Inv s) (hk : s.conns k = some c) (hkept : c.freed = false) (hout : s.pc t = .out)
    (hport : c'.port = c.port) (hcounted : c'.refno = c'.holders.length)
    (hheld : ∀ u, u ≠ t → u ∈ c.holders → u ∈ c'.holders)
    (hwpdu : c'.buf = c.buf ∧ c'.sz = c.sz ∧ c'.solong = c.solong) : Inv (s.put t .out k c') := by
  have hold := h.kept k c hk
  refine h.put hk (.inl (by rw [hout]; rfl)) (.inl rfl) hport (by rw [hout]) (by rw [hout]) ?_
  have hsame : Function.update s.pc t .out = s.pc := by rw [← hout, Function.update_eq_self]
  refine hold.relay (update_owns (by rw [hout])) hcounted (fun u hu => ?_) (fun hfreed => ?_) hwpdu fun hlive => ?_
  · rw [hsame] at hu
    refine hheld u ?_ (hold.held u hu)
    rintro rfl
    rw [hout] at hu
    cases hu
  · have hfree : c'.freed = c.freed := congrArg Port.freed hport
    rw [hfree, hkept] at hfreed
    cases hfreed
  · exact (congrArg Port.dead hport).symm.trans hlive

theorem incref_meets (h : Inv s) (hstep : incref s t heir k = some r) : r.Meets Inv := by
  obtain ⟨c, hk, hkept, hout, -, hr⟩ := h.entered hstep
  cases hr
  refine h.rehold hk hkept hout rfl ?_ (fun u _ hu => List.mem_cons_of_mem _ hu) ⟨rfl, rfl, rfl⟩
  simp [(h.kept k c hk).counted]

theorem pass_meets (h : Inv s) (hstep : pass s t heir k = some r) : r.Meets Inv := by
  obtain ⟨c, hk, hkept, hout, hheld, hr⟩ := h.entered hstep
  cases hr
  refine h.rehold hk hkept hout rfl ?_ (fun u hne hu => ?_) ⟨rfl, rfl, rfl⟩
  · rw [List.length_cons, List.length_erase_add_one hheld]
    exact (h.kept k c hk).counted
  · exact List.mem_cons_of_mem _ ((List.mem_erase_of_ne hne).mpr hu)

theorem decref_meets (h : Inv s) (hstep : decref s t k = some r) : r.Meets Inv := by
  obtain ⟨c, hk, hkept, hout, hheld, hr⟩ := h.entered hstep
  have hold := h.kept k c hk
  have hlength := List.length_erase_add_one hheld
  have hcounted := hold.counted
  have hrefno : c.refno ≠ 0 := by omega
  have hleft : c.refno - 1 = (c.holders.erase t).length := by omega
  rw [if_neg hrefno] at hr
  split at hr
  · rename_i hlast
    obtain ⟨hzero, hdead⟩ := hlast
    have hnil : c.holders.erase t = [] := List.eq_nil_of_length_eq_zero (hleft ▸ hzero)
    -- A thread in a call would be another holder.
    have hon : ∀ u, (s.pc u).on ≠ some k := by
      intro u hu
      have hne : u ≠ t := by
        rintro rfl
        rw [hout] at hu
        cases hu
      have hmem := (List.mem_erase_of_ne hne).mpr (hold.held u hu)
      rw [hnil] at hmem
      cases hmem
    have hbuf : c.buf = false := by
      by_contra hset
      obtain ⟨u, hu⟩ := hold.owned (Bool.not_eq_false _ ▸ hset)
      exact hon u (on_of_owns hu)
    rw [if_neg (by simp [hbuf])] at hr
    cases hr
    refine h.of_put rfl rfl (.inl (by rw [hout]; rfl)) (.inl rfl) ?_ ?_
    · have hport : s.ports k = some c.port := congrArg (Option.map Conn.port) hk
      have hwired := h.wired.delete hport hdead hkept fun u hu => hon u (on_of_kills hu)
      have hports := put_ports s t .out k { c.dropped t with freed := true }
      have hkills : (s.put t .out k { c.dropped t with freed := true }).kills = s.kills :=
        update_pc_same (by rw [hout])
      have hremoves : (s.put t .out k { c.dropped t with freed := true }).removes = s.removes :=
        update_pc_same (by rw [hout])
      change Wired s.mgr _ (s.put t .out k { c.dropped t with freed := true }).ports
        (s.put t .out k { c.dropped t with freed := true }).kills
        (s.put t .out k { c.dropped t with freed := true }).removes
      rw [hports, hkills, hremoves]
      exact hwired
    · have hsame : Function.update s.pc t .out = s.pc := by rw [← hout, Function.update_eq_self]
      change Kept (Function.update s.pc t .out) k _
      rw [hsame]
      exact hold.relay (fun _ => rfl) hleft (fun u hu => absurd hu (hon u)) (fun _ => hnil) ⟨rfl, rfl, rfl⟩ id
  · cases hr
    exact h.rehold hk hkept hout rfl hleft (fun u hne hu => (List.mem_erase_of_ne hne).mpr hu) ⟨rfl, rfl, rfl⟩

-- send ends.
theorem Inv.finish {n : Nat} {w v : CondVar τ} {buf : Bool} {size done : Int} (h : Inv s) (hk : s.conns k = some c)
    (hold : (s.pc t).on = none ∨ (s.pc t).on = some k) (hkills : (s.pc t).kills = none)
    (hremoves : (s.pc t).removes = none) (hothers : ∀ u, u ≠ t → (s.pc u).owns ≠ some k) :
    Inv (finish s t k { c with
      waiters := n, sendWait := w, sendComplete := v, buf := buf, sz := size, solong := done }) := by
  refine h.put hk hold (.inl rfl) rfl (by rw [hkills]; rfl) (by rw [hremoves]; rfl) ?_
  refine (h.kept k c hk).release hothers ?_ (fun u hne => Function.update_of_ne hne ..) ?_ rfl rfl rfl ⟨rfl, rfl, rfl⟩
  · rw [Function.update_self]
    rfl
  · rw [Function.update_self]
    rfl

-- A thread sets dead_.
theorem Inv.killed {c' : Conn τ} {sends : Bool} (h : Inv s) (hk : s.conns k = some c) (hlive : c.dead = false)
    (hold : (s.pc t).on = none ∨ (s.pc t).on = some k) (hkills : (s.pc t).kills = none)
    (hremoves : (s.pc t).removes = none) (hport : c'.port = { c.port with dead := true })
    (hkept : Kept (Function.update s.pc t (.killing sends k)) k c') : Inv (s.put t (.killing sends k) k c') := by
  refine h.of_put rfl rfl hold (.inr rfl) ?_ hkept
  have hp : s.ports k = some c.port := congrArg (Option.map Conn.port) hk
  have hkilled : (s.put t (.killing sends k) k c').kills = Function.update s.kills t (some k) := update_pc _ _ _ _
  have hsame : (s.put t (.killing sends k) k c').removes = s.removes := update_pc_same hremoves.symm
  rw [put_ports, hport, hkilled, hsame]
  exact h.wired.kill hp hlive hkills

theorem proceed_meets {n : Nat} {w : CondVar τ} (h : Inv s) (hk : s.conns k = some c) (hheld : t ∈ c.holders)
    (hidle : c.dead = false → c.buf = false) (hpc : s.pc t = .out ∨ ∃ size, s.pc t = .queued k size) :
    (proceed s t k sz io { c with waiters := n, sendWait := w }).Meets Inv := by
  have hon : (s.pc t).on = none ∨ (s.pc t).on = some k := by
    rcases hpc with heq | ⟨size, heq⟩ <;> simp [heq, Pc.on]
  have hkills : (s.pc t).kills = none := by
    rcases hpc with heq | ⟨size, heq⟩ <;> simp [heq, Pc.kills]
  have hremoves : (s.pc t).removes = none := by
    rcases hpc with heq | ⟨size, heq⟩ <;> simp [heq, Pc.removes]
  have howns : (s.pc t).owns = none := by
    rcases hpc with heq | ⟨size, heq⟩ <;> simp [heq, Pc.owns]
  have hold := h.kept k c hk
  unfold proceed
  split
  · refine h.put hk hon (.inl rfl) rfl hkills.symm hremoves.symm ?_
    refine hold.relay (update_owns howns.symm) hold.counted (fun u hu => ?_) hold.freed ⟨rfl, rfl, rfl⟩ id
    by_cases heq : u = t
    · exact heq ▸ hheld
    · rw [Function.update_of_ne heq] at hu
      exact hold.held u hu
  · rename_i hlive
    have hlive : c.dead = false := by simpa using hlive
    have hbuf := hidle hlive
    have hothers : ∀ u, u ≠ t → (s.pc u).owns ≠ some k := by
      intro u _ hu
      rw [hold.owns u hu] at hbuf
      cases hbuf
    split
    · rename_i hnone
      exact absurd hnone (writepdu_isSome _ io le_rfl)
    · rename_i c' hwrite
      obtain ⟨size, done, rfl, -⟩ := writepdu_some hwrite
      refine h.killed hk hlive hon hkills hremoves rfl ?_
      refine hold.claim hbuf ?_ (fun u hne => Function.update_of_ne hne ..) hheld rfl rfl rfl rfl (by simp)
      rw [Function.update_self]
      rfl
    · rename_i c' hwrite
      obtain ⟨size, done, rfl, hok⟩ := writepdu_some hwrite
      obtain ⟨hsize, hpos, hle⟩ := hok rfl (Int.natCast_nonneg sz)
      split
      · exact Inv.finish (c := c) h hk hon hkills hremoves hothers
      · have hp : s.ports k = some c.port := congrArg (Option.map Conn.port) hk
        obtain ⟨mgr, hadd, hwired⟩ := h.wired.watch hp hlive
        have hadd' : PollMgr.addCallback s.mgr c.fd .wronly k = some mgr := hadd
        simp only [hadd']
        refine h.of_put rfl rfl hon (.inr rfl) ?_ ?_
        · exact put_wired hk rfl hkills.symm hremoves.symm hwired
        · refine hold.claim hbuf ?_ (fun u hne => Function.update_of_ne hne ..) hheld rfl rfl rfl rfl fun _ => ?_
          · change (Function.update s.pc t (Pc.completing k) t).owns = some k
            rw [Function.update_self]
            rfl
          · exact ⟨hpos, hle.trans_eq hsize.symm⟩

theorem send_meets (h : Inv s) (hstep : send s t k sz io = some r) : r.Meets Inv := by
  obtain ⟨c, hk, hkept, hout, hheld, hr⟩ := h.entered hstep
  have hold := h.kept k c hk
  split at hr
  · cases hr
    refine h.put hk (.inl (by rw [hout]; rfl)) (.inr rfl) rfl (by rw [hout]; rfl) (by rw [hout]; rfl) ?_
    refine hold.relay (update_owns (by rw [hout]; rfl)) hold.counted (fun u hu => ?_) hold.freed ⟨rfl, rfl, rfl⟩ id
    by_cases heq : u = t
    · exact heq ▸ hheld
    · rw [Function.update_of_ne heq] at hu
      exact hold.held u hu
  · rename_i hfree
    cases hr
    refine proceed_meets (c := c) h hk hheld (fun hlive => ?_) (.inl hout)
    simpa [hlive] using hfree

theorem sendAgain_meets (h : Inv s) (hstep : sendAgain s t io = some r) : r.Meets Inv := by
  unfold sendAgain at hstep
  split at hstep
  · rename_i k sz hpc
    obtain ⟨c, hk, hkept, hheld, hr⟩ := h.used (by rw [hpc]; rfl) hstep
    have hold := h.kept k c hk
    obtain ⟨w, -, rfl⟩ := Option.map_eq_some_iff.mp hr
    split
    · refine h.put hk (.inr (by rw [hpc]; rfl)) (.inr rfl) rfl (by rw [hpc]) (by rw [hpc]) ?_
      have hsame : Function.update s.pc t (.queued k sz) = s.pc := by rw [← hpc, Function.update_eq_self]
      rw [hsame]
      exact ⟨hold.counted, hold.held, hold.freed, hold.owned, hold.owns, hold.single, hold.idle, hold.sane⟩
    · rename_i hfree
      refine proceed_meets (c := c) h hk hheld (fun hlive => ?_) (.inr ⟨sz, hpc⟩)
      simpa [hlive] using hfree
  · cases hstep

theorem sendCompleted_meets (h : Inv s) (hstep : sendCompleted s t = some r) : r.Meets Inv := by
  unfold sendCompleted at hstep
  split at hstep
  · rename_i k hpc
    obtain ⟨c, hk, hkept, hheld, hr⟩ := h.used (by rw [hpc]; rfl) hstep
    have hold := h.kept k c hk
    obtain ⟨w, -, rfl⟩ := Option.map_eq_some_iff.mp hr
    split
    · refine h.put hk (.inr (by rw [hpc]; rfl)) (.inr rfl) rfl (by rw [hpc]) (by rw [hpc]) ?_
      have hsame : Function.update s.pc t (.completing k) = s.pc := by rw [← hpc, Function.update_eq_self]
      rw [hsame]
      exact ⟨hold.counted, hold.held, hold.freed, hold.owned, hold.owns, hold.single, hold.idle, hold.sane⟩
    · exact Inv.finish (c := c) h hk (.inr (by rw [hpc]; rfl)) (by rw [hpc]; rfl) (by rw [hpc]; rfl)
        (h.others hk (by rw [hpc]; rfl))
  · cases hstep

theorem closeconn_meets (h : Inv s) (hstep : closeconn s t k = some r) : r.Meets Inv := by
  obtain ⟨c, hk, hkept, hout, hheld, hr⟩ := h.entered hstep
  have hold := h.kept k c hk
  cases hr
  split
  · exact h
  · rename_i hlive
    refine h.killed hk (by simpa using hlive) (.inl (by rw [hout]; rfl)) (by rw [hout]; rfl) (by rw [hout]; rfl) rfl ?_
    refine hold.relay (update_owns (by rw [hout]; rfl)) hold.counted (fun u hu => ?_) hold.freed ⟨rfl, rfl, rfl⟩
      (by simp)
    by_cases heq : u = t
    · exact heq ▸ hheld
    · rw [Function.update_of_ne heq] at hu
      exact hold.held u hu

-- A thread moves on in send or closeconn of a connection that does not change.
theorem Inv.turn {mgr : Mgr τ Nat} {p : Pc} (h : Inv s) (hk : s.conns k = some c) (hon : (s.pc t).on = some k)
    (hnew : p.on = none ∨ p.on = some k) (howns : p.owns = (s.pc t).owns)
    (hwired : Wired mgr s.opened s.ports (Function.update s.kills t p.kills) (Function.update s.removes t p.removes)) :
    Inv { s with mgr := mgr, pc := Function.update s.pc t p } := by
  have hold := h.kept k c hk
  have hsame : Function.update s.conns k (some c) = s.conns := by rw [← hk, Function.update_eq_self]
  have hkills : (fun u => (Function.update s.pc t p u).kills) = Function.update s.kills t p.kills := update_pc _ _ _ _
  have hremoves : (fun u => (Function.update s.pc t p u).removes) = Function.update s.removes t p.removes :=
    update_pc _ _ _ _
  refine h.of_put hsame.symm rfl (.inr hon) hnew ?_ ?_
  · rw [← hkills, ← hremoves] at hwired
    exact hwired
  · refine hold.relay (update_owns howns) hold.counted (fun u hu => ?_) hold.freed ⟨rfl, rfl, rfl⟩ id
    by_cases heq : u = t
    · exact heq ▸ hold.held t hon
    · have hu' : (Function.update s.pc t p u).on = some k := hu
      rw [Function.update_of_ne heq] at hu'
      exact hold.held u hu'

theorem remove_meets (h : Inv s) (hstep : remove s t = some r) : r.Meets Inv := by
  unfold remove at hstep
  split at hstep
  · rename_i sends k hpc
    obtain ⟨c, hk, hkept, hheld, hr⟩ := h.used (by rw [hpc]; rfl) hstep
    have hp : s.ports k = some c.port := congrArg (Option.map Conn.port) hk
    have hkills : s.kills t = some k := by rw [State.kills, hpc]; rfl
    have hremoves : s.removes t = none := by rw [State.removes, hpc]; rfl
    obtain ⟨mgr, hblock, hwired⟩ := h.wired.remove hp hkills hremoves
    have hblock' : PollMgr.blockRemoveFd s.mgr t c.fd = some mgr := hblock
    rw [hblock'] at hr
    cases hr
    refine h.turn hk (by rw [hpc]; rfl) (.inr rfl) (by rw [hpc]; cases sends <;> rfl) ?_
    have hsame : Function.update s.kills t (Pc.removing sends k).kills = s.kills := by
      rw [show (Pc.removing sends k).kills = s.kills t from hkills.symm, Function.update_eq_self]
    rw [hsame]
    exact hwired
  · cases hstep

theorem removeReturns_meets {early : Bool} (h : Inv s) (hpatient : Patient s (.removeReturns t early))
    (hstep : removeReturns s t early = some r) : r.Meets Inv := by
  unfold removeReturns at hstep
  split at hstep
  · rename_i sends k hpc
    obtain ⟨c, hk, hkept, hheld, hr⟩ := h.used (by rw [hpc]; rfl) hstep
    have hp : s.ports k = some c.port := congrArg (Option.map Conn.port) hk
    have hremoves : s.removes t = some k := by rw [State.removes, hpc]; rfl
    obtain ⟨mgr, hmgr, rfl⟩ := Option.map_eq_some_iff.mp hr
    have hwired : Wired mgr s.opened s.ports (Function.update s.kills t none) (Function.update s.removes t none) := by
      split at hmgr
      · rename_i hearly
        subst hearly
        obtain ⟨d, hleave, rfl⟩ := PollMgr.removeEarly_some hmgr
        exact h.wired.returns hp hremoves (CondVar.leave_threads hleave) (h.wired.inv.removeEarly hmgr)
          (hpatient c (by rw [hpc]; exact hk))
      · obtain ⟨d, hresume, rfl⟩ := PollMgr.removeDone_some hmgr
        exact h.wired.returns hp hremoves (CondVar.resume_threads hresume) (h.wired.inv.removeDone hmgr)
          (h.wired.inv.acknowledged (t, c.fd) (CondVar.resume_some hresume).1)
    cases sends with
    | true => exact h.turn hk (by rw [hpc]; rfl) (.inr rfl) (by rw [hpc]; rfl) hwired
    | false => exact h.turn hk (by rw [hpc]; rfl) (.inl rfl) (by rw [hpc]; rfl) hwired
  · cases hstep

theorem sendRemoved_meets (h : Inv s) (hstep : sendRemoved s t = some r) : r.Meets Inv := by
  unfold sendRemoved at hstep
  split at hstep
  · rename_i k hpc
    obtain ⟨c, hk, hkept, hheld, hr⟩ := h.used (by rw [hpc]; rfl) hstep
    cases hr
    exact Inv.finish (c := c) h hk (.inr (by rw [hpc]; rfl)) (by rw [hpc]; rfl) (by rw [hpc]; rfl)
      (h.others hk (by rw [hpc]; rfl))
  · cases hstep

theorem poll_meets {move : Move} (h : Inv s) (hstep : poll s move = some r) : r.Meets Inv := by
  obtain ⟨mgr, hmgr, rfl⟩ := Option.map_eq_some_iff.mp hstep
  exact ⟨h.wired.move hmgr, h.kept, h.within⟩

omit [DecidableEq τ] in
-- A callback is over.
theorem Inv.returned {c' : Conn τ} {mgr : Mgr τ Nat} {readable writable : List Nat} (h : Inv s)
    (hkept : Kept s.pc k c')
    (hwired : Wired { mgr with loop := .scanning readable writable } s.opened
      (Function.update s.ports k (some c'.port)) s.kills s.removes) : Inv (s.returned k c' mgr readable writable) := by
  have hports : (s.returned k c' mgr readable writable).ports = Function.update s.ports k (some c'.port) := by
    funext j
    by_cases heq : j = k
    · subst heq
      simp [State.ports, State.returned]
    · simp [State.ports, State.returned, Function.update_of_ne heq]
  refine ⟨hports ▸ hwired, fun j d hd => ?_, fun u j hu => ?_⟩
  · rcases update_some hd with ⟨rfl, rfl⟩ | ⟨-, hd⟩
    · exact hkept
    · exact h.kept j d hd
  · by_cases heq : j = k
    · subst heq
      exact ⟨c', Function.update_self ..⟩
    · obtain ⟨d, hd⟩ := h.within u j hu
      exact ⟨d, (Function.update_of_ne heq ..).trans hd⟩

omit [DecidableEq τ] in
-- It has changed nothing that matters for the poll manager.
theorem Inv.returned_same {c' : Conn τ} {mgr : Mgr τ Nat} {readable writable : List Nat} (h : Inv s)
    (hk : s.conns k = some c) (hport : c'.port = c.port) (hkept : Kept s.pc k c')
    (hwired : Wired { mgr with loop := .scanning readable writable } s.opened s.ports s.kills s.removes) :
    Inv (s.returned k c' mgr readable writable) := by
  refine h.returned hkept ?_
  rw [update_ports hk hport]
  exact hwired

omit [DecidableEq τ] in
-- The poll thread has found the connection lost.
theorem Inv.lost {write : Bool} {readable writable : List Nat} {w : CondVar τ} {size done : Int} (h : Inv s)
    (hk : s.conns k = some c) (hlive : c.dead = false) (hbuf : c.buf = false → size = c.sz ∧ done = c.solong)
    (hloop : s.mgr.loop = .calling write c.fd k readable writable) :
    (Outcome.verify ((PollMgr.delCallback s.mgr c.fd .rdwr).map fun mgr =>
      s.returned k { c with dead := true, sendComplete := w, sz := size, solong := done } mgr readable
        writable)).Meets Inv := by
  have hp : s.ports k = some c.port := congrArg (Option.map Conn.port) hk
  obtain ⟨mgr, hdel, hwired⟩ := h.wired.die hp hlive hloop
  have hdel' : PollMgr.delCallback s.mgr c.fd .rdwr = some mgr := hdel
  rw [hdel']
  refine h.returned ?_ hwired
  have hold := h.kept k c hk
  refine ⟨hold.counted, hold.held, hold.freed, hold.owned, hold.owns, hold.single, fun hclear => ?_, by simp⟩
  obtain ⟨hsz, hsolong⟩ := hold.idle hclear
  exact ⟨(hbuf hclear).1.trans hsz, (hbuf hclear).2.trans hsolong⟩

omit [DecidableEq τ] in
-- The callback changes nothing but what is in wpdu_.
theorem Inv.quiet {write : Bool} {readable writable : List Nat} {w : CondVar τ} {done : Int} (h : Inv s)
    (hk : s.conns k = some c) (hidle : c.buf = false → done = c.solong)
    (hsane : c.dead = false → 0 ≤ done ∧ done ≤ c.sz)
    (hloop : s.mgr.loop = .calling write fd k readable writable) :
    Inv (s.returned k { c with sendComplete := w, solong := done } s.mgr readable writable) := by
  have hold := h.kept k c hk
  refine h.returned_same hk rfl ?_ (h.wired.back hloop)
  refine ⟨hold.counted, hold.held, hold.freed, hold.owned, hold.owns, hold.single, fun hclear => ?_, hsane⟩
  exact ⟨(hold.idle hclear).1, (hidle hclear).trans (hold.idle hclear).2⟩

-- Where a VERIFY may fail: the descriptor is too large for the table, readpdu cannot go on with what it reads on a live
-- connection, or the poll thread calls write_cb of a connection that a thread has killed.
def Refused (s : State τ) : Event τ → Prop
  | .create _ _ fd => MAX_POLL_FDS ≤ fd
  | .readCb .stopped => ∃ fd k readable writable c, s.mgr.loop = .calling false fd k readable writable ∧
      s.conns k = some c ∧ c.dead = false
  | .writeCb _ _ => ∃ fd k readable writable c, s.mgr.loop = .calling true fd k readable writable ∧
      s.conns k = some c ∧ c.dead = true
  | _ => False

theorem readCb_meets {read : Read τ} (h : Inv s) (hstep : readCb s read = some r) :
    r.Meets Inv ∨ r = .aborts ∧ Refused s (.readCb read) := by
  unfold readCb at hstep
  split at hstep
  · rename_i fd k readable writable hloop
    obtain ⟨c, hk, hkept, rfl, hr⟩ := h.called hloop hstep
    have hold := h.kept k c hk
    rw [if_neg (by simp)] at hr
    split at hr
    · cases hr
      exact .inl (h.quiet hk (fun _ => rfl) hold.sane hloop)
    · rename_i hlive
      have hlive : c.dead = false := by simpa using hlive
      cases read with
      | quiet =>
          cases hr
          exact .inl (h.quiet hk (fun _ => rfl) hold.sane hloop)
      | stopped =>
          cases hr
          exact .inr ⟨rfl, c.fd, k, readable, writable, c, hloop, hk, hlive⟩
      | got heir =>
          cases hr
          left
          refine h.returned_same hk rfl ?_ (h.wired.back hloop)
          refine hold.relay (fun _ => rfl) (by simp [hold.counted])
            (fun u hu => List.mem_cons_of_mem _ (hold.held u hu)) (fun hfreed => ?_) ⟨rfl, rfl, rfl⟩ id
          rw [hkept] at hfreed
          cases hfreed
      | failed pick =>
          obtain ⟨w, -, rfl⟩ := Option.map_eq_some_iff.mp hr
          exact .inl (h.lost hk hlive (fun _ => ⟨rfl, rfl⟩) hloop)
  · cases hstep

theorem writeCb_meets {pick : Option τ} (h : Inv s) (hstep : writeCb s io pick = some r) :
    r.Meets Inv ∨ r = .aborts ∧ Refused s (.writeCb io pick) := by
  unfold writeCb at hstep
  split at hstep
  · rename_i fd k readable writable hloop
    obtain ⟨c, hk, hkept, rfl, hr⟩ := h.called hloop hstep
    by_cases hdead : c.dead = true
    · rw [if_pos (.inl hdead)] at hr
      cases hr
      exact .inr ⟨rfl, c.fd, k, readable, writable, c, hloop, hk, hdead⟩
    · left
      have hlive : c.dead = false := by simpa using hdead
      have hold := h.kept k c hk
      obtain ⟨hpos, hle⟩ := hold.sane hlive
      rw [if_neg (by simp [hlive])] at hr
      split at hr
      · cases hr
        have hp : s.ports k = some c.port := congrArg (Option.map Conn.port) hk
        obtain ⟨mgr, hdel, hsame, hwired⟩ := h.wired.unwatch hp hlive
        have hdel' : PollMgr.delCallback s.mgr c.fd .wronly = some mgr := hdel
        rw [hdel']
        exact h.returned_same hk rfl hold (hwired.back (hsame.trans hloop))
      · rename_i hfull
        -- There is something to write, so a thread has filled wpdu_.
        have hbuf : c.buf ≠ false := fun hclear => hfull (hold.idle hclear).1
        split at hr
        · rename_i hnone
          exact absurd hnone (writepdu_isSome c io hpos)
        · rename_i c' hwrite
          obtain ⟨size, done, rfl, -⟩ := writepdu_some hwrite
          obtain ⟨w, -, rfl⟩ := Option.map_eq_some_iff.mp hr
          exact Inv.lost (c := c) h hk hlive (fun hclear => absurd hclear hbuf) hloop
        · rename_i c' hwrite
          obtain ⟨size, done, rfl, hok⟩ := writepdu_some hwrite
          obtain ⟨rfl, hpos', hle'⟩ := hok rfl hle
          rw [if_neg (Int.not_lt.mpr hpos')] at hr
          split at hr
          · cases hr
            exact Inv.quiet (c := c) h hk (fun hclear => absurd hclear hbuf) (fun _ => ⟨hpos', hle'⟩) hloop
          · obtain ⟨w, -, rfl⟩ := Option.map_eq_some_iff.mp hr
            exact Inv.quiet (c := c) h hk (fun hclear => absurd hclear hbuf) (fun _ => ⟨hpos', hle'⟩) hloop
  · cases hstep

theorem Inv.step {event : Event τ} (h : Inv s) (hpatient : Patient s event) (hstep : step s event = some r) :
    r.Meets Inv ∨ r = .aborts ∧ Refused s event := by
  cases event with
  | create t k fd => exact create_meets h hstep
  | incref t heir k => exact .inl (incref_meets h hstep)
  | pass t heir k => exact .inl (pass_meets h hstep)
  | decref t k => exact .inl (decref_meets h hstep)
  | send t k sz io => exact .inl (send_meets h hstep)
  | sendAgain t io => exact .inl (sendAgain_meets h hstep)
  | sendCompleted t => exact .inl (sendCompleted_meets h hstep)
  | closeconn t k => exact .inl (closeconn_meets h hstep)
  | remove t => exact .inl (remove_meets h hstep)
  | removeReturns t early => exact .inl (removeReturns_meets h hpatient hstep)
  | sendRemoved t => exact .inl (sendRemoved_meets h hstep)
  | poll move => exact .inl (poll_meets h hstep)
  | readCb read => exact readCb_meets h hstep
  | writeCb io pick => exact writeCb_meets h hstep

theorem Inv.goes {event : Event τ} {next : State τ} (h : Inv s) (hpatient : Patient s event)
    (hstep : Step s event next) : Inv next := by
  rcases h.step hpatient (step_of_Step hstep) with hnext | ⟨haborts, -⟩
  · exact hnext
  · cases haborts

variable {pipefd : Nat}

theorem reachable_inv (hr : Reachable (Guarded Patient Step) (initial pipefd) s) : Inv s :=
  hr.invariant Inv (fun _ => initial_inv) fun _ _ _ h hstep => h.goes hstep.1 hstep.2

-- No object is used after it has been deleted, by the poll thread or by a thread that has a reference, and no VERIFY
-- fails in the connections and the poll manager but for those that Refused lists.
theorem only_refused_aborts (hr : Reachable (Guarded Patient Step) (initial pipefd) s) :
    (∀ event, Patient s event → step s event = some .aborts → Refused s event) ∧
      (∀ fd k, s.mgr.callbacks fd = some k ∨ Calls fd k s.mgr.loop →
        ∃ c, s.conns k = some c ∧ c.fd = fd ∧ c.freed = false) ∧
      ∀ k c, s.conns k = some c → c.refno = c.holders.length ∧ (c.freed = true → c.dead = true ∧ c.holders = []) := by
  have h := reachable_inv hr
  refine ⟨fun event hpatient haborts => ?_, fun fd k hknown => ?_, fun k c hk => ?_⟩
  · rcases h.step hpatient haborts with hmeets | ⟨-, hrefused⟩
    · exact absurd hmeets id
    · exact hrefused
  · obtain ⟨p, hp, rfl⟩ := hknown.elim (h.wired.registered fd k) (h.wired.calling fd k)
    have hkept := h.wired.not_freed hp hknown
    obtain ⟨c, hk, rfl⟩ := Option.map_eq_some_iff.mp hp
    exact ⟨c, hk, rfl, hkept⟩
  · have hp : s.ports k = some c.port := congrArg (Option.map Conn.port) hk
    exact ⟨(h.kept k c hk).counted, fun hfreed => ⟨h.wired.deadFirst k c.port hp hfreed, (h.kept k c hk).freed hfreed⟩⟩

end Steps

-- A connection that is closed while the poll thread is about to go on with a message on it.
def closing : List (Event Nat) :=
  [.create 0 0 7, .incref 0 1 0, .send 0 0 10 (.wrote 4), .poll .top, .poll .snapshot,
    .poll (.select (fun _ => false) fun fd => fd == 7), .poll .scan, .closeconn 1 0]

theorem only_refused_closing : ∃ s : State Nat, step s (.writeCb .again none) = some .aborts ∧
    Refused s (.writeCb .again none) := by
  have hexec : (execute (fun s event => if Patient s event then advance s event else none)
      ({ mgr := { aio := .create 3 }, opened := fun fd => fd == 3 } : State Nat) closing).map
      (fun s => aborts s (.writeCb .again none)) = some true := by decide
  obtain ⟨s, hs, haborts⟩ := Option.map_eq_some_iff.mp hexec
  have hstart : Reachable (Guarded Patient Step) (initial 3)
      ({ mgr := { aio := .create 3 }, opened := fun fd => fd == 3 } : State Nat) := .start ⟨_, rfl, rfl⟩
  have hstep := step_of_aborts haborts
  exact ⟨s, hstep, (only_refused_aborts (hstart.executed hs)).1 _ trivial hstep⟩

end CseLabs.Connections
