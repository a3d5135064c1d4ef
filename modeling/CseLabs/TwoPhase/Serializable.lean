import CseLabs.TwoPhase.Locks

namespace CseLabs.TwoPhase

open Ydb Serial

def State.accesses (s : State) (id : Tid) : List (Access Slot Str) :=
  Ydb.accesses REMOVESTRING s.replies id

-- The entries that a commit has still to write.
def Pc.pending : Pc → List (Slot × Str)
  | .committing rest => rest
  | _ => []

-- The store as it will be when the commit that is under way is through.
def State.logical (s : State) : Slot → Str :=
  match s.lcDependency with
  | none => s.ec
  | some id => writeBack (s.pc id).pending s.ec

def State.committing (s : State) : List Tid :=
  match s.lcDependency with
  | none => []
  | some id => if (s.pc id).isCommitting then [id] else []

def State.Live (s : State) (id : Tid) : Prop := s.transactionInfos id ≠ none

-- A transaction relies on the slots that it has locked.
def Transaction.relies (info : Transaction) (store : Slot → Str) : Slot → Option Str :=
  fun ino => if ino ∈ info.locks then some (store ino) else none

structure Values (init : Slot → Str) (s : State) : Prop where
  tracks : ∀ id info, s.transactionInfos id = some info → (s.pc id).inLoop = false →
    Tracks (info.relies s.logical) info.log (s.accesses id)
  history : History init REMOVESTRING s.transId s.Live s.replies s.committing s.logical

variable {init : Slot → Str} {s next : State} {id : Tid}

theorem pending_of_not_inLoop {pc : Pc} (h : pc.inLoop = false) :
    pc.pending = [] ∧ pc.isCommitting = false := by
  cases pc with
  | committing rest => cases h
  | _ => exact ⟨rfl, rfl⟩

-- A slot that a transaction outside the commit loop holds is not waiting to be
-- written.
theorem Locks.logical_of_held (h : Locks s) {ino : Slot} (hheld : s.lc ino = some id)
    (hloop : (s.pc id).inLoop = false) : s.logical ino = s.ec ino := by
  unfold State.logical
  cases hdep : s.lcDependency with
  | none => rfl
  | some other =>
      refine writeBack_of_not_mem s.ec ?_
      intro hmem
      have hcommit : ∃ rest, s.pc other = .committing rest := by
        cases hp : s.pc other with
        | committing rest => exact ⟨rest, rfl⟩
        | _ => simp [hp, Pc.pending] at hmem
      obtain ⟨rest, hp⟩ := hcommit
      have howned : ino ∈ (s.pc other).owned (s.locks other) := by
        rw [hp] at hmem ⊢
        exact List.mem_toFinset.mpr hmem
      have hsame := ((h other).held ino).mpr howned
      rw [hheld] at hsame
      obtain rfl := Option.some.inj hsame
      rw [hp] at hloop
      cases hloop

-- A step of one transaction.
theorem Values.change (h : Values init s) (id : Tid) (hpc : ∀ other, other ≠ id → next.pc other = s.pc other)
    (hinfo : ∀ other, other ≠ id → next.transactionInfos other = s.transactionInfos other)
    (hacc : ∀ other, other ≠ id → next.accesses other = s.accesses other)
    (hlogical : ∀ other info ino, other ≠ id → s.transactionInfos other = some info →
      (s.pc other).inLoop = false → ino ∈ info.locks → next.logical ino = s.logical ino)
    (hself : ∀ info, next.transactionInfos id = some info → (next.pc id).inLoop = false →
      Tracks (info.relies next.logical) info.log (next.accesses id))
    (hhistory : History init REMOVESTRING next.transId next.Live next.replies next.committing
      next.logical) : Values init next := by
  refine ⟨?_, hhistory⟩
  intro other info hi hloop
  by_cases he : other = id
  · subst he
    exact hself info hi hloop
  · rw [hinfo other he] at hi
    rw [hpc other he] at hloop
    have hrelies : info.relies next.logical = info.relies s.logical := by
      funext ino
      unfold Transaction.relies
      split
      · rename_i hm
        rw [hlogical other info ino he hi hloop hm]
      · rfl
    rw [hrelies, hacc other he]
    exact h.tracks other info hi hloop

-- A step that shows in nothing but where the call of one transaction is.
theorem Values.quiet (h : Values init s) (id : Tid) (hpc : ∀ other, other ≠ id → next.pc other = s.pc other)
    (hinfo : next.transactionInfos = s.transactionInfos) (hreplies : next.replies = s.replies)
    (htid : next.transId = s.transId) (hlogical : next.logical = s.logical)
    (hcommitting : next.committing = s.committing)
    (hloop : (next.pc id).inLoop = false → (s.pc id).inLoop = false) : Values init next := by
  have hacc : next.accesses = s.accesses := by
    funext other
    simp [State.accesses, hreplies]
  have hlive : next.Live = s.Live := by
    funext other
    simp [State.Live, hinfo]
  refine h.change id hpc (fun other _ => by rw [hinfo]) (fun other _ => by rw [hacc])
    (fun _ _ ino _ _ _ _ => by rw [hlogical]) ?_ ?_
  · intro info hi hl
    rw [hlogical, hacc]
    exact h.tracks id info (hinfo ▸ hi) (hloop hl)
  · rw [htid, hlive, hreplies, hcommitting, hlogical]
    exact h.history

-- The pc of a transaction outside the loops does not show in the store.
theorem logical_setPc {pc : Pc} (hold : (s.pc id).inLoop = false) (hnew : pc.inLoop = false) :
    (s.setPc id pc).logical = s.logical ∧ (s.setPc id pc).committing = s.committing := by
  obtain ⟨hpending, hcommit⟩ := pending_of_not_inLoop hold
  obtain ⟨hpending', hcommit'⟩ := pending_of_not_inLoop hnew
  unfold State.logical State.committing
  rw [setPc_lcDependency]
  cases hdep : s.lcDependency with
  | none => exact ⟨rfl, rfl⟩
  | some other =>
      by_cases he : other = id
      · subst he
        simp [hpending, hpending', hcommit, hcommit']
      · simp [setPc_pc_of_ne s id other pc he]

theorem Values.setPc (h : Values init s) {pc : Pc} (hold : (s.pc id).inLoop = false)
    (hnew : pc.inLoop = false) : Values init (s.setPc id pc) := by
  obtain ⟨hlogical, hcommitting⟩ := logical_setPc hold hnew
  exact h.quiet id (fun other he => setPc_pc_of_ne s id other pc he) rfl rfl rfl hlogical hcommitting
    (fun _ => hold)

-- What the other fields hold does not show either.
theorem Values.setLocks (h : Values init s) (dependency : Tid → Tid → Bool)
    (lockHandlers lc : Slot → Option Tid) :
    Values init { s with dependency := dependency, lockHandlers := lockHandlers, lc := lc } :=
  h.quiet 0 (fun _ _ => rfl) rfl rfl rfl rfl rfl (fun hl => hl)

theorem Values.start (init : Slot → Str) : Values init (start init) where
  tracks := by simp [TwoPhase.start]
  history := History.start init REMOVESTRING _

theorem Values.begin (h : Values init s) (hs : transactionBegin s = some next) : Values init next := by
  obtain rfl := begin_cases hs
  refine h.change s.transId (fun _ _ => rfl) (fun other he => setInfo_infos_of_ne s _ _ _ he)
    (fun _ _ => rfl) (fun _ _ _ _ _ _ _ => rfl) ?_ ?_
  · intro info hi _
    simp only [setInfo_infos_self, Option.some.injEq] at hi
    subst hi
    have hnone : s.accesses s.transId = [] := h.history.fresh s.transId le_rfl
    change Tracks _ _ (s.accesses s.transId)
    rw [hnone]
    exact Tracks.nil _
  · refine h.history.setLive (Nat.le_succ _) ?_
    intro other hlt hlive
    exact fun hnone => hlive ((setInfo_infos_of_ne s _ _ _ hlt.ne).trans hnone)

-- An answer that is no successful get, set, del or commit.
theorem Values.reply_other (h : Values init s) (hloop : (s.pc id).inLoop = false) {call : Call}
    {status : Status} (hstatus : status = .OK → call = .abort) (value : Str) :
    Values init (s.reply id call status value) := by
  obtain ⟨hlogical, hcommitting⟩ := logical_setPc hloop (show Pc.idle.inLoop = false from rfl)
  have hlogical : (s.reply id call status value).logical = s.logical := hlogical
  have hcommitting : (s.reply id call status value).committing = s.committing := hcommitting
  have hacc : ∀ other, (s.reply id call status value).accesses other = s.accesses other :=
    fun other => congrFun (accesses_other REMOVESTRING s.replies hstatus) other
  refine h.change id (fun other he => reply_pc_of_ne s _ _ _ _ _ he) (fun _ _ => rfl)
    (fun other _ => hacc other) (fun _ _ ino _ _ _ _ => congrFun hlogical ino) ?_ ?_
  · intro info hi _
    rw [hacc, hlogical]
    exact h.tracks id info hi hloop
  · rw [hlogical, hcommitting]
    exact h.history.other hstatus

-- A live transaction outside the loops is not the one whose commit is under way.
theorem not_mem_committing (hloop : (s.pc id).inLoop = false) : id ∉ s.committing := by
  unfold State.committing
  split
  · simp
  · split
    · rename_i other _ hcommit
      intro hm
      rw [← List.mem_singleton.mp hm, (pending_of_not_inLoop hloop).2] at hcommit
      cases hcommit
    · simp

-- A successful get, set or del.
theorem Values.reply_access (h : Values init s) (hborn : id < s.transId) {info info' : Transaction}
    (hinfo : s.transactionInfos id = some info) (hloop : (s.pc id).inLoop = false) {op : Op} {out : Str}
    {access : Access Slot Str}
    (haccess : (⟨id, op.call, .OK, out⟩ : Reply).access REMOVESTRING = some access)
    (htracks : Tracks (info'.relies s.logical) info'.log (s.accesses id ++ [access])) :
    Values init ((s.setInfo id (some info')).reply id op.call .OK out) := by
  have hacc : ∀ other, ((s.setInfo id (some info')).reply id op.call .OK out).accesses other =
      s.accesses other ++ if id = other then [access] else [] := by
    intro other
    simp [State.accesses, State.reply, State.setInfo, accesses_append, haccess]
  obtain ⟨hlogical, hcommitting⟩ := logical_setPc hloop (show Pc.idle.inLoop = false from rfl)
  have hlogical : ((s.setInfo id (some info')).reply id op.call .OK out).logical = s.logical := hlogical
  have hcommitting : ((s.setInfo id (some info')).reply id op.call .OK out).committing = s.committing :=
    hcommitting
  refine h.change id (fun other he => reply_pc_of_ne _ _ _ _ _ _ he)
    (fun other he => setInfo_infos_of_ne s _ _ _ he) ?_ (fun _ _ ino _ _ _ _ => congrFun hlogical ino)
    ?_ ?_
  · intro other he
    rw [hacc, if_neg (Ne.symm he), List.append_nil]
  · intro info'' hi _
    simp only [reply_infos, setInfo_infos_self, Option.some.injEq] at hi
    subst hi
    rw [hlogical, hacc, if_pos rfl]
    exact htracks
  · rw [hlogical, hcommitting]
    have hlive : s.Live id := by simp [State.Live, hinfo]
    have hhistory := h.history.access hlive hborn (not_mem_committing hloop) haccess
    refine hhistory.setLive le_rfl ?_
    intro other _ hl
    by_cases he : other = id
    · exact he ▸ hlive
    · exact fun hnone => hl ((setInfo_infos_of_ne s _ _ _ he).trans hnone)

theorem Values.access (h : Values init s) (hlocks : Locks s) {info : Transaction} {op : Op}
    (hidle : s.pc id = .idle) (hinfo : s.transactionInfos id = some info)
    (hs : access s id info op = some next) : Values init next := by
  have hloop : (s.pc id).inLoop = false := by rw [hidle]; rfl
  rcases access_cases hinfo hs with ⟨-, rfl⟩ | ⟨-, old, hold, rfl⟩
  · exact h.setPc hloop rfl
  · have hborn := (hlocks id).born (by simp [hinfo])
    have htracks := h.tracks id info hinfo hloop
    cases op with
    | get key =>
        have hlog : Function.update info.log (Op.get key).ino (some ((Op.get key).logged old)) = info.log := by
          rw [show (Op.get key).logged old = old from rfl, ← hold, Function.update_eq_self]
        rw [hlog]
        refine h.reply_access hborn hinfo hloop rfl (htracks.read ?_)
        intro store _
        have hold : info.log (hash key) = some old := hold
        simp [overlay, hold, Op.out]
    | set key value => exact h.reply_access hborn hinfo hloop rfl (htracks.write _ value)
    | del key => exact h.reply_access hborn hinfo hloop rfl (htracks.write _ REMOVESTRING)

theorem Values.receive (h : Values init s) (hlocks : Locks s) {call : Call}
    (hs : receive s id call = some next) : Values init next := by
  obtain ⟨hidle, hcases⟩ := receive_cases hs
  have hloop : (s.pc id).inLoop = false := by rw [hidle]; rfl
  rcases hcases with ⟨-, rfl⟩ | ⟨info, hinfo, ⟨op, rfl, haccess⟩ | ⟨-, rfl⟩ | ⟨-, rfl⟩⟩
  · exact h.reply_other hloop (by simp) []
  · exact h.access hlocks hidle hinfo haccess
  · exact h.setPc hloop rfl
  · exact h.setPc hloop rfl

theorem Values.runCheckCycle (h : Values init s) (hs : runCheckCycle s id = some next) :
    Values init next := by
  obtain ⟨op, cycle, mid, hpc, -, hcheck, rfl⟩ := runCheckCycle_cases hs
  obtain ⟨dependency, rfl⟩ := checkCycle_eq_setDependency hcheck
  have hmid : Values init { s with dependency := dependency } := h.setLocks dependency s.lockHandlers s.lc
  have hloop : (s.pc id).inLoop = false := by rw [hpc]; rfl
  cases cycle
  · exact hmid.setPc hloop rfl
  · exact hmid.setPc hloop rfl

theorem Values.acquire (h : Values init s) (hs : acquire s id = some next) : Values init next := by
  obtain ⟨op, hpc, -, rfl⟩ := acquire_cases hs
  have hmid := h.setLocks s.dependency s.lockHandlers (Function.update s.lc op.ino (some id))
  have hloop : (s.pc id).inLoop = false := by rw [hpc]; rfl
  exact hmid.setPc hloop rfl

theorem Values.record (h : Values init s) (hlocks : Locks s) (hs : record s id = some next) :
    Values init next := by
  obtain ⟨op, info, hpc, hinfo, rfl⟩ := record_cases hs
  have hloop : (s.pc id).inLoop = false := by rw [hpc]; rfl
  have hborn := (hlocks id).born (by simp [hinfo])
  have hheld := ((hlocks id).held op.ino).mpr (by simp [hpc, Pc.owned])
  have hread := hlocks.logical_of_held hheld hloop
  have hnew := (hlocks id).new op (by simp [hpc, Pc.op])
  rw [locks_of_some s id hinfo] at hnew
  have hlog : info.log op.ino = none := by
    by_contra hl
    exact hnew (((hlocks id).logged info op.ino hinfo).mpr hl)
  -- what the transaction relies on grows by the slot
  have hmore : Tracks (({ info with locks := insert op.ino info.locks } : Transaction).relies s.logical)
      info.log (s.accesses id) := by
    refine (h.tracks id info hinfo hloop).mono ?_
    intro ino value hv
    unfold Transaction.relies at hv ⊢
    split at hv
    · rename_i hm
      simpa [hm] using hv
    · cases hv
  have hvalue : ∀ store, Agrees (({ info with locks := insert op.ino info.locks } :
      Transaction).relies s.logical) store → overlay info.log store op.ino = s.ec op.ino := by
    intro store hagree
    have hslot := hagree op.ino (s.logical op.ino) (by simp [Transaction.relies])
    simp only [overlay, hlog, Option.getD_none]
    rw [hslot, hread]
  have hmid := h.setLocks s.dependency (Function.update s.lockHandlers op.ino (some id)) s.lc
  cases op with
  | get key => exact hmid.reply_access hborn hinfo hloop rfl ((hmore.read hvalue).buffer hvalue)
  | set key value => exact hmid.reply_access hborn hinfo hloop rfl (hmore.write _ value)
  | del key => exact hmid.reply_access hborn hinfo hloop rfl (hmore.write _ REMOVESTRING)

theorem live_of_setInfo_none {other : Tid} (h : (s.setInfo id none).Live other) :
    s.Live other ∧ other ≠ id := by
  have he : other ≠ id := by
    rintro rfl
    exact h (setInfo_infos_self s other none)
  exact ⟨fun hnone => h ((setInfo_infos_of_ne s _ _ _ he).trans hnone), he⟩

theorem Values.releaseStart (h : Values init s) (hs : releaseStart s id = some next) :
    Values init next := by
  obtain ⟨call, info, hpc, hinfo, hfree, rfl⟩ := releaseStart_cases hs
  refine h.quiet id (fun other he => setPc_pc_of_ne _ id other _ he) rfl rfl rfl ?_ ?_ ?_
  · simp [State.logical, State.clearDependency, hfree, Pc.pending, writeBack]
  · simp [State.committing, hfree, Pc.isCommitting]
  · simp [Pc.inLoop]

theorem Values.releaseEntry (h : Values init s) (hlocks : Locks s) (hs : releaseEntry s id = some next) :
    Values init next := by
  obtain ⟨call, ino, rest, hpc, rfl⟩ := releaseEntry_cases hs
  have hturn := (hlocks id).turn (by rw [hpc]; rfl)
  refine h.quiet id (fun other he => setPc_pc_of_ne _ id other _ he) rfl rfl rfl ?_ ?_ ?_
  · simp [State.logical, State.unlock, hturn, hpc, Pc.pending]
  · simp [State.committing, State.unlock, hturn, hpc, Pc.isCommitting]
  · simp [Pc.inLoop]

-- The transaction goes away and leaves the committed ones as they are.
theorem Values.releaseEnd (h : Values init s) (hlocks : Locks s) (hs : releaseEnd s id = some next) :
    Values init next := by
  obtain ⟨call, hpc, rfl⟩ := releaseEnd_cases hs
  have hturn := (hlocks id).turn (by rw [hpc]; rfl)
  have hlogical : s.logical = s.ec := by simp [State.logical, hturn, hpc, Pc.pending, writeBack]
  have hcommitting : s.committing = [] := by simp [State.committing, hturn, hpc, Pc.isCommitting]
  have hgone : Values init ({ s.setPc id .idle with lcDependency := none }.setInfo id none) := by
    refine h.change id (fun other he => setPc_pc_of_ne s id other _ he)
      (fun other he => setInfo_infos_of_ne _ _ _ _ he) (fun _ _ => rfl) ?_ (by simp) ?_
    · intro _ _ ino _ _ _ _
      rw [hlogical]
      rfl
    · have hhistory := h.history
      rw [hcommitting, hlogical] at hhistory
      exact hhistory.setLive le_rfl (fun other _ hl => (live_of_setInfo_none hl).1)
  have hidle : (({ s.setPc id .idle with lcDependency := none }.setInfo id none).pc id).inLoop = false := by
    simp [Pc.inLoop]
  have hstatus : (if call = .abort then Status.OK else .ABORT) = .OK → call = .abort := by
    intro hok
    by_contra hc
    simp [hc] at hok
  have hreply := hgone.reply_other hidle hstatus []
  simpa [State.reply, State.setInfo, State.setPc] using hreply

theorem Values.commitStart (h : Values init s) (hlocks : Locks s) (hs : commitStart s id = some next) :
    Values init next := by
  obtain ⟨info, hpc, hinfo, hfree, rfl⟩ := commitStart_cases hs
  have hloop : (s.pc id).inLoop = false := by rw [hpc]; rfl
  have hlogical : s.logical = s.ec := by simp [State.logical, hfree]
  have hnext : ({ s with lcDependency := some id }.setPc id (.committing (entries info.log))).logical =
      overlay info.log s.ec := by
    rw [← writeBack_entries]
    simp [State.logical, Pc.pending]
  have hagree : Agrees (info.relies s.logical) s.ec := by
    intro ino value hv
    unfold Transaction.relies at hv
    split at hv
    · rw [← hlogical]
      exact Option.some.inj hv
    · cases hv
  obtain ⟨hfaithful, hreplay⟩ := h.tracks id info hinfo hloop s.ec hagree
  refine h.change id (fun other he => setPc_pc_of_ne _ id other _ he) (fun _ _ => rfl)
    (fun _ _ => rfl) ?_ (by simp [Pc.inLoop]) ?_
  · -- the slots of the others are not in the log
    intro other info' ino he hi hl hm
    have hother : s.lc ino = some other := by
      refine ((hlocks other).held ino).mpr ?_
      rw [locks_of_some s other hi]
      cases hp : s.pc other with
      | granted op => exact Finset.mem_insert_of_mem hm
      | releasing call rest => rw [hp] at hl; cases hl
      | committing rest => rw [hp] at hl; cases hl
      | _ => exact hm
    have hnot : info.log ino = none := by
      by_contra hlog
      have hmine := ((hlocks id).logged info ino hinfo).mpr hlog
      have hid : s.lc ino = some id := by
        refine ((hlocks id).held ino).mpr ?_
        rw [hpc, locks_of_some s id hinfo]
        exact hmine
      rw [hother] at hid
      exact he (Option.some.inj hid)
    rw [hnext, hlogical]
    simp [overlay, hnot]
  · have hcommitting : ({ s with lcDependency := some id }.setPc id
        (.committing (entries info.log))).committing = [id] := by
      simp [State.committing, Pc.isCommitting]
    have hnone : s.committing = [] := by simp [State.committing, hfree]
    have hhistory := h.history
    rw [hnone, hlogical] at hhistory
    rw [hcommitting, hnext, ← hreplay]
    exact hhistory.commitPoint hfaithful

theorem Values.commitEnd (h : Values init s) (hlocks : Locks s) (hs : commitEnd s id = some next) :
    Values init next := by
  obtain ⟨hpc, rfl⟩ := commitEnd_cases hs
  have hturn := (hlocks id).turn (by rw [hpc]; rfl)
  have hlive := (hlocks id).busy (by simp [hpc])
  have hlogical : s.logical = s.ec := by simp [State.logical, hturn, hpc, Pc.pending, writeBack]
  have hcommitting : s.committing = [id] := by simp [State.committing, hturn, hpc, Pc.isCommitting]
  have hacc : ∀ other, (({ s.clearDependency id with lcDependency := none }.setInfo id none).reply id
      .commit .OK []).accesses other = s.accesses other := by
    intro other
    simp [State.accesses, State.reply, State.setInfo, State.clearDependency, accesses_append, Reply.access]
  refine h.change id (fun other he => reply_pc_of_ne _ _ _ _ _ _ he)
    (fun other he => setInfo_infos_of_ne _ _ _ _ he) (fun other _ => hacc other) ?_ (by simp) ?_
  · intro _ _ ino _ _ _ _
    rw [hlogical]
    rfl
  · have hhistory := h.history
    rw [hcommitting, hlogical] at hhistory
    exact hhistory.commitEnd [] ((hlocks id).born hlive) (fun other hl => live_of_setInfo_none hl)

-- Runs without del and without the sentinel as a value.
def getSet : Event → Bool
  | .call _ (.set _ value) => value ≠ REMOVESTRING
  | .call _ (.del _) => false
  | _ => true

def Op.clean : Op → Prop
  | .get _ => True
  | .set _ value => value ≠ REMOVESTRING
  | .del _ => False

structure Clean (s : State) : Prop where
  ec : ∀ ino, s.ec ino ≠ REMOVESTRING
  log : ∀ id info ino, s.transactionInfos id = some info → info.log ino ≠ some REMOVESTRING
  op : ∀ id op, (s.pc id).op = some op → op.clean
  pending : ∀ id entry, entry ∈ (s.pc id).pending → entry.2 ≠ REMOVESTRING

-- A step of one transaction, over the same store.
theorem Clean.change (h : Clean s) (id : Tid) (hec : next.ec = s.ec)
    (hpc : ∀ other, other ≠ id → next.pc other = s.pc other)
    (hinfo : ∀ other, other ≠ id → next.transactionInfos other = s.transactionInfos other)
    (hlog : ∀ info ino, next.transactionInfos id = some info → info.log ino ≠ some REMOVESTRING)
    (hop : ∀ op, (next.pc id).op = some op → op.clean)
    (hpending : ∀ entry, entry ∈ (next.pc id).pending → entry.2 ≠ REMOVESTRING) : Clean next := by
  constructor
  · rw [hec]
    exact h.ec
  · intro other info ino hi
    by_cases he : other = id
    · exact hlog info ino (he ▸ hi)
    · exact h.log other info ino (hinfo other he ▸ hi)
  · intro other op ho
    by_cases he : other = id
    · exact hop op (he ▸ ho)
    · exact h.op other op (hpc other he ▸ ho)
  · intro other entry hm
    by_cases he : other = id
    · exact hpending entry (he ▸ hm)
    · exact h.pending other entry (hpc other he ▸ hm)

theorem Clean.setPc (h : Clean s) {pc : Pc} (hop : ∀ op, pc.op = some op → op.clean)
    (hpending : ∀ entry, entry ∈ pc.pending → entry.2 ≠ REMOVESTRING) : Clean (s.setPc id pc) :=
  h.change id rfl (fun other he => setPc_pc_of_ne s id other pc he) (fun _ _ => rfl)
    (fun info ino => h.log id info ino) (by simpa using hop) (by simpa using hpending)

theorem Clean.setLocks (h : Clean s) (dependency : Tid → Tid → Bool) (lockHandlers lc : Slot → Option Tid)
    (lcDependency : Option Tid) :
    Clean { s with
      dependency := dependency
      lockHandlers := lockHandlers
      lc := lc
      lcDependency := lcDependency } :=
  ⟨h.ec, h.log, h.op, h.pending⟩

theorem Clean.reply (h : Clean s) (call : Call) (status : Status) (value : Str) :
    Clean (s.reply id call status value) :=
  h.change id rfl (fun other he => reply_pc_of_ne s _ _ _ _ _ he) (fun _ _ => rfl)
    (fun info ino => h.log id info ino) (by simp [Pc.op]) (by simp [Pc.pending])

theorem Clean.setInfo (h : Clean s) {info : Option Transaction}
    (hlog : ∀ trans ino, info = some trans → trans.log ino ≠ some REMOVESTRING) :
    Clean (s.setInfo id info) :=
  h.change id rfl (fun _ _ => rfl) (fun other he => setInfo_infos_of_ne s _ _ _ he)
    (by simpa using hlog) (h.op id) (h.pending id)

-- The log after one more value.
theorem Clean.setLog (h : Clean s) {info : Transaction} (hinfo : s.transactionInfos id = some info)
    {ino : Slot} {value : Str} (hvalue : value ≠ REMOVESTRING) (locks : Finset Slot) :
    Clean (s.setInfo id (some { locks := locks, log := Function.update info.log ino (some value) })) := by
  refine h.setInfo ?_
  intro trans other ht
  cases ht
  by_cases he : other = ino
  · simpa [he] using hvalue
  · simpa [he] using h.log id info other hinfo

theorem Clean.access (h : Clean s) {info : Transaction} {op : Op} (hop : op.clean)
    (hinfo : s.transactionInfos id = some info) (hs : access s id info op = some next) : Clean next := by
  rcases access_cases hinfo hs with ⟨-, rfl⟩ | ⟨-, old, hold, rfl⟩
  · refine h.setPc ?_ (by simp [Pc.pending])
    intro op' ho
    cases ho
    exact hop
  · have hvalue : op.logged old ≠ REMOVESTRING := by
      cases op with
      | get key =>
          rintro rfl
          exact h.log id info _ hinfo hold
      | set key value => exact hop
      | del key => exact absurd hop (by simp [Op.clean])
    exact (h.setLog hinfo hvalue info.locks).reply _ _ _

theorem Clean.receive (h : Clean s) {call : Call} (hcall : getSet (.call id call) = true)
    (hs : receive s id call = some next) : Clean next := by
  obtain ⟨-, ⟨-, rfl⟩ | ⟨info, hinfo, ⟨op, rfl, haccess⟩ | ⟨-, rfl⟩ | ⟨-, rfl⟩⟩⟩ := receive_cases hs
  · exact h.reply _ _ _
  · have hop : op.clean := by
      cases op with
      | get key => trivial
      | set key value =>
          have hvalue : value ≠ REMOVESTRING := of_decide_eq_true hcall
          exact hvalue
      | del key => exact absurd hcall (by simp [getSet, Op.call])
    exact h.access hop hinfo haccess
  · exact h.setPc (by simp [Pc.op]) (by simp [Pc.pending])
  · exact h.setPc (by simp [Pc.op]) (by simp [Pc.pending])

theorem Clean.record (h : Clean s) (hs : record s id = some next) : Clean next := by
  obtain ⟨op, info, hpc, hinfo, rfl⟩ := record_cases hs
  have hop := h.op id op (by rw [hpc]; rfl)
  have hvalue : op.logged (s.ec op.ino) ≠ REMOVESTRING := by
    cases op with
    | get key => exact h.ec _
    | set key value => exact hop
    | del key => exact absurd hop (by simp [Op.clean])
  have hmid := h.setLocks s.dependency (Function.update s.lockHandlers op.ino (some id)) s.lc s.lcDependency
  exact (hmid.setLog hinfo hvalue (insert op.ino info.locks)).reply _ _ _

theorem Clean.commitEntry (h : Clean s) (hs : commitEntry s id = some next) : Clean next := by
  obtain ⟨ino, value, rest, hpc, rfl⟩ := commitEntry_cases hs
  have hvalue : value ≠ REMOVESTRING := h.pending id (ino, value) (by simp [hpc, Pc.pending])
  have hec : Clean { s with ec := Function.update s.ec ino value } := by
    refine ⟨?_, h.log, h.op, h.pending⟩
    intro other
    by_cases he : other = ino
    · simpa [he] using hvalue
    · simpa [he] using h.ec other
  rw [if_neg hvalue]
  have hmid := hec.setLocks s.dependency (Function.update s.lockHandlers ino none)
    (Function.update s.lc ino none) s.lcDependency
  refine hmid.setPc (by simp [Pc.op]) ?_
  intro entry hm
  exact h.pending id entry (by simpa [hpc, Pc.pending] using .inr hm)

theorem Clean.step (h : Clean s) {event : Event} (hevent : getSet event = true) (hs : Step s event next) :
    Clean next := by
  unfold Step TwoPhase.step at hs
  cases event with
  | begin =>
      obtain rfl := begin_cases hs
      have hinfo : Clean (s.setInfo s.transId (some {})) := h.setInfo (by rintro _ _ ⟨⟩; simp)
      exact ⟨hinfo.ec, hinfo.log, hinfo.op, hinfo.pending⟩
  | call id call => exact h.receive hevent hs
  | checkCycle id =>
      obtain ⟨op, cycle, mid, hpc, -, hcheck, rfl⟩ := runCheckCycle_cases hs
      obtain ⟨dependency, rfl⟩ := checkCycle_eq_setDependency hcheck
      have hop := h.op id op (by rw [hpc]; rfl)
      have hmid := h.setLocks dependency s.lockHandlers s.lc s.lcDependency
      cases cycle
      · refine hmid.setPc ?_ (by simp [Pc.pending])
        intro op' ho
        cases ho
        exact hop
      · exact hmid.setPc (by simp [Pc.op]) (by simp [Pc.pending])
  | acquire id =>
      obtain ⟨op, hpc, -, rfl⟩ := acquire_cases hs
      have hop := h.op id op (by rw [hpc]; rfl)
      have hmid := h.setLocks s.dependency s.lockHandlers (Function.update s.lc op.ino (some id)) s.lcDependency
      refine hmid.setPc ?_ (by simp [Pc.pending])
      intro op' ho
      cases ho
      exact hop
  | record id => exact h.record hs
  | releaseStart id =>
      obtain ⟨call, info, -, -, -, rfl⟩ := releaseStart_cases hs
      have hmid := h.setLocks (s.clearDependency id).dependency s.lockHandlers s.lc (some id)
      exact hmid.setPc (by simp [Pc.op]) (by simp [Pc.pending])
  | releaseEntry id =>
      obtain ⟨call, ino, rest, -, rfl⟩ := releaseEntry_cases hs
      have hmid := h.setLocks s.dependency (Function.update s.lockHandlers ino none)
        (Function.update s.lc ino none) s.lcDependency
      exact hmid.setPc (by simp [Pc.op]) (by simp [Pc.pending])
  | releaseEnd id =>
      obtain ⟨call, -, rfl⟩ := releaseEnd_cases hs
      have hmid := h.setLocks s.dependency s.lockHandlers s.lc none
      exact (hmid.setInfo (by simp)).reply _ _ _
  | commitStart id =>
      obtain ⟨info, -, hinfo, -, rfl⟩ := commitStart_cases hs
      have hmid := h.setLocks s.dependency s.lockHandlers s.lc (some id)
      refine hmid.setPc (by simp [Pc.op]) ?_
      rintro ⟨ino, value⟩ hm hvalue
      simp only [Pc.pending, mem_entries] at hm
      exact h.log id info ino hinfo (hm.trans (congrArg some hvalue))
  | commitEntry id => exact h.commitEntry hs
  | commitEnd id =>
      obtain ⟨-, rfl⟩ := commitEnd_cases hs
      have hmid := h.setLocks (s.clearDependency id).dependency s.lockHandlers s.lc none
      exact (hmid.setInfo (by simp)).reply _ _ _

-- Writing an entry and taking it off the list leaves the store to come the same.
theorem Values.commitEntry (h : Values init s) (hlocks : Locks s) (hclean : Clean s)
    (hs : commitEntry s id = some next) : Values init next := by
  obtain ⟨ino, value, rest, hpc, rfl⟩ := commitEntry_cases hs
  have hturn := (hlocks id).turn (by rw [hpc]; rfl)
  have hvalue : value ≠ REMOVESTRING := hclean.pending id (ino, value) (by simp [hpc, Pc.pending])
  rw [if_neg hvalue]
  refine h.quiet id (fun other he => setPc_pc_of_ne _ id other _ he) rfl rfl rfl ?_ ?_ ?_
  · simp [State.logical, State.unlock, hturn, hpc, Pc.pending, writeBack]
  · simp [State.committing, State.unlock, hturn, hpc, Pc.isCommitting]
  · simp [Pc.inLoop]

theorem Values.step (h : Values init s) (hlocks : Locks s) (hclean : Clean s) {event : Event}
    (hs : Step s event next) : Values init next := by
  unfold Step TwoPhase.step at hs
  cases event with
  | begin => exact h.begin hs
  | call id call => exact h.receive hlocks hs
  | checkCycle id => exact h.runCheckCycle hs
  | acquire id => exact h.acquire hs
  | record id => exact h.record hlocks hs
  | releaseStart id => exact h.releaseStart hs
  | releaseEntry id => exact h.releaseEntry hlocks hs
  | releaseEnd id => exact h.releaseEnd hlocks hs
  | commitStart id => exact h.commitStart hlocks hs
  | commitEntry id => exact h.commitEntry hlocks hclean hs
  | commitEnd id => exact h.commitEnd hlocks hs

theorem reachable_values {init : Slot → Str} (hinit : ∀ ino, init ino ≠ REMOVESTRING) {s : State}
    (hr : Reachable (Guarded (fun s event => Bounded s event ∧ getSet event = true) Step) (· = start init) s) :
    Locks s ∧ Clean s ∧ Values init s := by
  refine hr.invariant (fun s => Locks s ∧ Clean s ∧ Values init s) ?_ ?_
  · rintro s rfl
    refine ⟨Locks.start init, ?_, Values.start init⟩
    constructor <;> simp [TwoPhase.start, Pc.op, Pc.pending, hinit]
  · rintro s event next ⟨hlocks, hclean, hvalues⟩ ⟨⟨-, hevent⟩, hs⟩
    exact ⟨hlocks.step hs, hclean.step hevent hs, hvalues.step hlocks hclean hs⟩

-- The committed transactions, one after another in the order of their commits, read
-- what they read and leave the store as it is whenever no commit is in its loop.
theorem serializable (init : Slot → Str) (hinit : ∀ ino, init ino ≠ REMOVESTRING) (s : State)
    (hr : Reachable (Guarded (fun s event => Bounded s event ∧ getSet event = true) Step) (· = start init) s)
    (hquiet : ∀ id rest, s.pc id ≠ .committing rest) :
    SerialRun init ((commits s.replies).map s.accesses) s.ec := by
  obtain ⟨-, -, hvalues⟩ := reachable_values hinit hr
  have hpending : ∀ id, (s.pc id).pending = [] ∧ (s.pc id).isCommitting = false := by
    intro id
    cases hp : s.pc id with
    | committing rest => exact absurd hp (hquiet id rest)
    | _ => exact ⟨rfl, rfl⟩
  have hlogical : s.logical = s.ec := by
    unfold State.logical
    split
    · rfl
    · rw [(hpending _).1]
      rfl
  have hcommitting : s.committing = [] := by
    unfold State.committing
    split
    · rfl
    · simp [(hpending _).2]
  have hserial := hvalues.history.serial
  rw [hcommitting, List.append_nil, hlogical] at hserial
  exact hserial

-- Transaction 0 sets the empty key and commits, transaction 1 reads it and commits.
def twoTransactions : List Event :=
  [.begin, .call 0 (.set [] [7]), .checkCycle 0, .acquire 0, .record 0, .call 0 .commit, .commitStart 0,
    .commitEntry 0, .commitEnd 0, .begin, .call 1 (.get []), .checkCycle 1, .acquire 1, .record 1,
    .call 1 .commit, .commitStart 1, .commitEntry 1, .commitEnd 1]

theorem serializable_two :
    ∃ s : State, commits s.replies = [0, 1] ∧ s.ec (hash []) = [7] ∧
      SerialRun (fun _ => []) ((commits s.replies).map s.accesses) s.ec := by
  have hrun : (execute (fun s event => if Bounded s event ∧ getSet event = true then step s event else none)
      (start fun _ => []) twoTransactions).map
        (fun s => (commits s.replies, s.ec (hash []), s.lcDependency)) = some ([0, 1], [7], none) := by
    decide +kernel
  obtain ⟨s, hs, hfields⟩ := Option.map_eq_some_iff.mp hrun
  simp only [Prod.mk.injEq] at hfields
  obtain ⟨hcommits, hec, hdep⟩ := hfields
  have hstart : Reachable (Guarded (fun s event => Bounded s event ∧ getSet event = true) Step)
      (· = start fun _ => []) (start fun _ => []) := .start rfl
  have hr := hstart.executed hs
  have hinit : ∀ ino : Slot, (fun _ => [] : Slot → Str) ino ≠ REMOVESTRING := by
    simp [REMOVESTRING]
  refine ⟨s, hcommits, hec, serializable _ hinit s hr ?_⟩
  intro id rest hpc
  have hturn := ((reachable_values hinit hr).1 id).turn (by rw [hpc]; rfl)
  rw [hdep] at hturn
  cases hturn

end CseLabs.TwoPhase
