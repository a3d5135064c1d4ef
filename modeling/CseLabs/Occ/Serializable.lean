import CseLabs.Occ
import CseLabs.Ydb.History

namespace CseLabs.Occ

open Ydb Serial

-- The thread has WRITESET.
def Pc.inCommit : Pc → Bool
  | .validating _ | .writing _ => true
  | _ => false

-- The entries that a commit has still to write.
def Pc.pending : Pc → List (Slot × Str)
  | .writing rest => rest
  | _ => []

def Pc.isWriting : Pc → Bool
  | .writing _ => true
  | _ => false

def State.accesses (s : State) (id : Tid) : List (Access Slot Str) := Ydb.accesses [] s.replies id

def State.Live (s : State) (id : Tid) : Prop := s.transactionInfos id ≠ none

-- The store as it will be when the commit that is under way is through.
def State.logical (s : State) : Slot → Str :=
  match s.lcWriteset with
  | none => s.ec
  | some id => writeBack (s.pc id).pending s.ec

def State.committing (s : State) : List Tid :=
  match s.lcWriteset with
  | none => []
  | some id => if (s.pc id).isWriting then [id] else []

-- What holds of one transaction, whatever the others do. The reads are right in every
-- store that agrees with read_log, and validation finds out whether the store does.
structure Own (s : State) (id : Tid) : Prop where
  born : s.Live id → id < s.transId
  busy : s.pc id ≠ .idle → s.Live id
  turn : (s.pc id).inCommit = true → s.lcWriteset = some id
  tracks : ∀ info, s.transactionInfos id = some info →
    Tracks info.readLog info.writeLog (s.accesses id)
  validated : ∀ info rest ino value, s.transactionInfos id = some info → s.pc id = .validating rest →
    info.readLog ino = some value → (ino, value) ∈ rest ∨ s.ec ino = value

structure Inv (init : Slot → Str) (s : State) : Prop where
  own : ∀ id, Own s id
  history : History init [] s.transId s.Live s.replies s.committing s.logical

section Projections

variable (s : State) (id other : Tid) (pc : Pc) (call : Call) (status : Status) (value : Str)
  (info : Option Transaction)

@[simp] theorem setPc_pc_self : (s.setPc id pc).pc id = pc := by simp [State.setPc]

theorem setPc_pc_of_ne (h : other ≠ id) : (s.setPc id pc).pc other = s.pc other := by
  simp [State.setPc, h]

@[simp] theorem reply_pc_self : (s.reply id call status value).pc id = .idle := by simp [State.reply]

theorem reply_pc_of_ne (h : other ≠ id) : (s.reply id call status value).pc other = s.pc other := by
  simp [State.reply, h]

@[simp] theorem reply_infos : (s.reply id call status value).transactionInfos = s.transactionInfos := rfl

@[simp] theorem setInfo_infos_self : (s.setInfo id info).transactionInfos id = info := by
  simp [State.setInfo]

theorem setInfo_infos_of_ne (h : other ≠ id) :
    (s.setInfo id info).transactionInfos other = s.transactionInfos other := by
  simp [State.setInfo, h]

end Projections

variable {init : Slot → Str} {s next : State} {id : Tid}

section Cases

theorem begin_cases (hs : transactionBegin s = some next) :
    next = { s.setInfo s.transId (some {}) with transId := s.transId + 1 } := by
  unfold transactionBegin at hs
  split at hs
  · cases hs
    rfl
  · cases hs

-- The value is in a log of the transaction; or the store no longer has the one in read_log; or
-- the slot is read for the first time.
theorem get_cases (s : State) (id : Tid) (info : Transaction) (key : Str) :
    (∃ value, (info.writeLog (hashOcc key) = some value ∨
        info.writeLog (hashOcc key) = none ∧ info.readLog (hashOcc key) = some value) ∧
      Occ.get s id info key = s.reply id (.get key) .OK value) ∨
      (∃ old, info.readLog (hashOcc key) = some old ∧ s.ec (hashOcc key) ≠ old ∧
        Occ.get s id info key = (s.setInfo id none).reply id (.get key) .ABORT (s.ec (hashOcc key))) ∨
      info.writeLog (hashOcc key) = none ∧ info.readLog (hashOcc key) = none ∧
        Occ.get s id info key = (s.setInfo id (some { info with
          readLog := Function.update info.readLog (hashOcc key) (some (s.ec (hashOcc key))) })).reply
            id (.get key) .OK (s.ec (hashOcc key)) := by
  unfold Occ.get
  simp only
  split
  · rename_i value hwrite
    exact .inl ⟨value, .inl hwrite, rfl⟩
  · rename_i hwrite
    split
    · rename_i old hread
      split
      · rename_i hsame
        exact .inl ⟨old, .inr ⟨hwrite, hread⟩, by rw [hsame]⟩
      · rename_i hne
        exact .inr (.inl ⟨old, hread, hne, rfl⟩)
    · rename_i hread
      exact .inr (.inr ⟨hwrite, hread, rfl⟩)

theorem receive_cases {call : Call} (hs : receive s id call = some next) :
    s.pc id = .idle ∧
      ((s.transactionInfos id = none ∧ next = s.reply id call .TRANSIDINV []) ∨
        ∃ info, s.transactionInfos id = some info ∧
          ((∃ key, call = .get key ∧ next = Occ.get s id info key) ∨
            (∃ ino value, (⟨id, call, .OK, []⟩ : Reply).access [] = some (.write ino value) ∧
              next = (s.setInfo id (some { info with
                writeLog := Function.update info.writeLog ino (some value) })).reply id call .OK []) ∨
            (call = .commit ∧ next = s.setPc id .preparing) ∨
            call = .abort ∧ next = (s.setInfo id none).reply id .abort .OK [])) := by
  unfold receive at hs
  split at hs
  · cases hs
  · rename_i hidle
    refine ⟨by simpa using hidle, ?_⟩
    split at hs
    · rename_i hnone
      cases hs
      exact .inl ⟨hnone, rfl⟩
    · rename_i info hinfo
      refine .inr ⟨info, hinfo, ?_⟩
      cases call with
      | get key =>
          cases hs
          exact .inl ⟨key, rfl, rfl⟩
      | set key value =>
          cases hs
          exact .inr (.inl ⟨hashOcc key, value, rfl, rfl⟩)
      | del key =>
          cases hs
          exact .inr (.inl ⟨hashOcc key, [], rfl, rfl⟩)
      | commit =>
          cases hs
          exact .inr (.inr (.inl ⟨rfl, rfl⟩))
      | abort =>
          cases hs
          exact .inr (.inr (.inr ⟨rfl, rfl⟩))

theorem commitStart_cases (hs : commitStart s id = some next) :
    ∃ info, s.pc id = .preparing ∧ s.transactionInfos id = some info ∧ s.lcWriteset = none ∧
      next = { s with lcWriteset := some id }.setPc id (.validating (entries info.readLog)) := by
  unfold commitStart at hs
  split at hs
  · rename_i hpc
    simp only [Option.bind_eq_bind, Option.bind_eq_some_iff] at hs
    obtain ⟨info, hinfo, hs⟩ := hs
    split at hs
    · rename_i hfree
      cases hs
      exact ⟨info, hpc, hinfo, hfree, rfl⟩
    · cases hs
  · cases hs

theorem validate_cases (hs : validate s id = some next) :
    (∃ ino value rest, s.pc id = .validating ((ino, value) :: rest) ∧
      ((s.ec ino = value ∧ next = s.setPc id (.validating rest)) ∨
        s.ec ino ≠ value ∧
          next = ({ s with lcWriteset := none }.setInfo id none).reply id .commit .ABORT [])) ∨
      ∃ info, s.pc id = .validating [] ∧ s.transactionInfos id = some info ∧
        next = s.setPc id (.writing (entries info.writeLog)) := by
  unfold validate at hs
  split at hs
  · rename_i ino value rest hpc
    refine .inl ⟨ino, value, rest, hpc, ?_⟩
    split at hs
    · rename_i hsame
      cases hs
      exact .inl ⟨hsame, rfl⟩
    · rename_i hne
      cases hs
      exact .inr ⟨hne, rfl⟩
  · rename_i hpc
    simp only [Option.bind_eq_bind, Option.bind_eq_some_iff] at hs
    obtain ⟨info, hinfo, hs⟩ := hs
    cases hs
    exact .inr ⟨info, hpc, hinfo, rfl⟩
  · cases hs

theorem put_cases (hs : put s id = some next) :
    (∃ ino value rest, s.pc id = .writing ((ino, value) :: rest) ∧
      next = { s with ec := Function.update s.ec ino value }.setPc id (.writing rest)) ∨
      s.pc id = .writing [] ∧
        next = ({ s with lcWriteset := none }.setInfo id none).reply id .commit .OK [] := by
  unfold put at hs
  split at hs
  · rename_i ino value rest hpc
    cases hs
    exact .inl ⟨ino, value, rest, hpc, rfl⟩
  · rename_i hpc
    cases hs
    exact .inr ⟨hpc, rfl⟩
  · cases hs

end Cases

-- The transaction whose step an event is.
def actor (s : State) : Event → Tid
  | .begin => s.transId
  | .call id _ | .commitStart id | .validate id | .put id => id

theorem step_frame {event : Event} {other : Tid} (hs : Step s event next) (hne : other ≠ actor s event) :
    next.pc other = s.pc other ∧ next.transactionInfos other = s.transactionInfos other := by
  unfold Step Occ.step at hs
  cases event with
  | begin =>
      obtain rfl := begin_cases hs
      exact ⟨rfl, setInfo_infos_of_ne s _ _ _ hne⟩
  | call id call =>
      have hreply : ∀ call status value, (s.reply id call status value).pc other = s.pc other :=
        fun _ _ _ => reply_pc_of_ne _ _ _ _ _ _ hne
      have hset : ∀ info, (s.setInfo id info).transactionInfos other = s.transactionInfos other :=
        fun _ => setInfo_infos_of_ne _ _ _ _ hne
      obtain ⟨-, ⟨-, rfl⟩ | ⟨info, -, ⟨key, rfl, rfl⟩ | ⟨ino, value, -, rfl⟩ | ⟨-, rfl⟩ | ⟨-, rfl⟩⟩⟩ := receive_cases hs
      · exact ⟨hreply _ _ _, rfl⟩
      · obtain ⟨value, -, hget⟩ | ⟨old, -, -, hget⟩ | ⟨-, -, hget⟩ := get_cases s id info key
        · rw [hget]
          exact ⟨hreply _ _ _, rfl⟩
        · rw [hget]
          exact ⟨hreply (.get key) .ABORT [], hset none⟩
        · rw [hget]
          exact ⟨hreply (.get key) .OK [], hset _⟩
      · exact ⟨hreply call .OK [], hset _⟩
      · exact ⟨setPc_pc_of_ne _ _ _ _ hne, rfl⟩
      · exact ⟨hreply .abort .OK [], hset none⟩
  | commitStart id =>
      obtain ⟨info, -, -, -, rfl⟩ := commitStart_cases hs
      exact ⟨setPc_pc_of_ne _ _ _ _ hne, rfl⟩
  | validate id =>
      obtain ⟨ino, value, rest, -, ⟨-, rfl⟩ | ⟨-, rfl⟩⟩ | ⟨info, -, -, rfl⟩ := validate_cases hs
      · exact ⟨setPc_pc_of_ne _ _ _ _ hne, rfl⟩
      · exact ⟨reply_pc_of_ne _ _ _ _ _ _ hne, setInfo_infos_of_ne _ _ _ _ hne⟩
      · exact ⟨setPc_pc_of_ne _ _ _ _ hne, rfl⟩
  | put id =>
      obtain ⟨ino, value, rest, -, rfl⟩ | ⟨-, rfl⟩ := put_cases hs
      · exact ⟨setPc_pc_of_ne _ _ _ _ hne, rfl⟩
      · exact ⟨reply_pc_of_ne _ _ _ _ _ _ hne, setInfo_infos_of_ne _ _ _ _ hne⟩

theorem live_of_setInfo_none {other : Tid} (h : (s.setInfo id none).Live other) :
    s.Live other ∧ other ≠ id := by
  have he : other ≠ id := by
    rintro rfl
    exact h (setInfo_infos_self s other none)
  exact ⟨fun hnone => h ((setInfo_infos_of_ne s _ _ _ he).trans hnone), he⟩

-- A step of one transaction. Only the holder of WRITESET changes the store.
theorem Inv.change (h : Inv init s) (id : Tid) (hpc : ∀ other, other ≠ id → next.pc other = s.pc other)
    (hinfo : ∀ other, other ≠ id → next.transactionInfos other = s.transactionInfos other)
    (hacc : ∀ other, other ≠ id → next.accesses other = s.accesses other)
    (htid : s.transId ≤ next.transId)
    (hturn : ∀ other, other ≠ id → s.lcWriteset = some other →
      next.lcWriteset = some other ∧ next.ec = s.ec)
    (hself : Own next id)
    (hhistory : History init [] next.transId next.Live next.replies next.committing next.logical) :
    Inv init next := by
  refine ⟨?_, hhistory⟩
  intro other
  by_cases he : other = id
  · exact he ▸ hself
  · have hold := h.own other
    have hi := hinfo other he
    have hp := hpc other he
    constructor
    · intro hl
      exact (hold.born (by simpa [State.Live, hi] using hl)).trans_le htid
    · intro hn
      have hlive := hold.busy (hp ▸ hn)
      simpa [State.Live, hi] using hlive
    · intro hc
      exact (hturn other he (hold.turn (hp ▸ hc))).1
    · intro info hs
      rw [hacc other he]
      exact hold.tracks info (hi ▸ hs)
    · intro info rest ino value hs hv hread
      rw [hp] at hv
      have hset := hold.turn (by rw [hv]; rfl)
      rw [(hturn other he hset).2]
      exact hold.validated info rest ino value (hi ▸ hs) hv hread

theorem pending_of_not_inCommit {pc : Pc} (h : pc.inCommit = false) :
    pc.pending = [] ∧ pc.isWriting = false := by
  cases pc with
  | writing rest => cases h
  | _ => exact ⟨rfl, rfl⟩

theorem logical_setPc {pc : Pc} (hold : (s.pc id).inCommit = false) (hnew : pc.inCommit = false) :
    (s.setPc id pc).logical = s.logical ∧ (s.setPc id pc).committing = s.committing := by
  obtain ⟨hpending, hwriting⟩ := pending_of_not_inCommit hold
  obtain ⟨hpending', hwriting'⟩ := pending_of_not_inCommit hnew
  unfold State.logical State.committing
  rw [show (s.setPc id pc).lcWriteset = s.lcWriteset from rfl]
  cases hset : s.lcWriteset with
  | none => exact ⟨rfl, rfl⟩
  | some other =>
      by_cases he : other = id
      · subst he
        simp [hpending, hpending', hwriting, hwriting', State.setPc]
      · simp [State.setPc, he]

theorem not_mem_committing (h : (s.pc id).inCommit = false) : id ∉ s.committing := by
  unfold State.committing
  split
  · simp
  · split
    · rename_i other _ hwriting
      intro hm
      rw [← List.mem_singleton.mp hm, (pending_of_not_inCommit h).2] at hwriting
      cases hwriting
    · simp

theorem Inv.start (init : Slot → Str) : Inv init (start init) where
  own := by
    intro id
    constructor <;> simp [Occ.start, State.Live, Pc.inCommit]
  history := History.start init [] _

theorem Inv.begin (h : Inv init s) (hs : transactionBegin s = some next) : Inv init next := by
  obtain rfl := begin_cases hs
  have hid := h.own s.transId
  have hidle : s.pc s.transId = .idle := by
    by_contra hp
    exact absurd (hid.born (hid.busy hp)) (lt_irrefl _)
  refine h.change s.transId (fun _ _ => rfl) (fun other he => setInfo_infos_of_ne s _ _ _ he)
    (fun _ _ => rfl) (Nat.le_succ _) (fun _ _ ht => ⟨ht, rfl⟩) ?_ ?_
  · constructor
    · intro _
      exact Nat.lt_succ_self _
    · intro _
      simp [State.Live, State.setInfo]
    · intro hc
      rw [show ({ s.setInfo s.transId (some {}) with transId := s.transId + 1 } : State).pc
        s.transId = s.pc s.transId from rfl, hidle] at hc
      cases hc
    · intro info hi
      simp only [setInfo_infos_self, Option.some.injEq] at hi
      subst hi
      have hnone : s.accesses s.transId = [] := h.history.fresh s.transId le_rfl
      change Tracks _ _ (s.accesses s.transId)
      rw [hnone]
      exact Tracks.nil _
    · intro info rest ino value _ hv
      have hv : s.pc s.transId = .validating rest := hv
      rw [hidle] at hv
      cases hv
  · refine h.history.setLive (Nat.le_succ _) ?_
    intro other hlt hlive
    exact fun hnone => hlive ((setInfo_infos_of_ne s _ _ _ hlt.ne).trans hnone)

-- A successful get, set or del.
theorem Inv.reply_access (h : Inv init s) (hidle : s.pc id = .idle) {info info' : Transaction}
    (hinfo : s.transactionInfos id = some info) {call : Call} {out : Str} {access : Access Slot Str}
    (haccess : (⟨id, call, .OK, out⟩ : Reply).access [] = some access)
    (htracks : Tracks info'.readLog info'.writeLog (s.accesses id ++ [access])) :
    Inv init ((s.setInfo id (some info')).reply id call .OK out) := by
  have hid := h.own id
  have hlive : s.Live id := by simp [State.Live, hinfo]
  have hborn := hid.born hlive
  have hcommit : (s.pc id).inCommit = false := by rw [hidle]; rfl
  have hacc : ∀ other, ((s.setInfo id (some info')).reply id call .OK out).accesses other =
      s.accesses other ++ if id = other then [access] else [] := by
    intro other
    simp [State.accesses, State.reply, State.setInfo, accesses_append, haccess]
  obtain ⟨hlogical, hcommitting⟩ := logical_setPc hcommit (show Pc.idle.inCommit = false from rfl)
  have hlogical : ((s.setInfo id (some info')).reply id call .OK out).logical = s.logical := hlogical
  have hcommitting : ((s.setInfo id (some info')).reply id call .OK out).committing = s.committing :=
    hcommitting
  refine h.change id (fun other he => reply_pc_of_ne _ _ _ _ _ _ he)
    (fun other he => setInfo_infos_of_ne s _ _ _ he) ?_ le_rfl (fun _ _ ht => ⟨ht, rfl⟩) ?_ ?_
  · intro other he
    rw [hacc, if_neg (Ne.symm he), List.append_nil]
  · constructor
    · intro _
      exact hborn
    · simp
    · simp [Pc.inCommit]
    · intro info'' hi
      simp only [reply_infos, setInfo_infos_self, Option.some.injEq] at hi
      subst hi
      rw [hacc, if_pos rfl]
      exact htracks
    · simp
  · rw [hlogical, hcommitting]
    refine (h.history.access hlive hborn (not_mem_committing hcommit) haccess).setLive le_rfl ?_
    intro other _ hl
    by_cases he : other = id
    · exact he ▸ hlive
    · exact fun hnone => hl ((setInfo_infos_of_ne s _ _ _ he).trans hnone)

theorem own_gone (s : State) (id : Tid) (call : Call) (status : Status) (out : Str) :
    Own ((s.setInfo id none).reply id call status out) id := by
  constructor
  · intro hl
    exact absurd (setInfo_infos_self s id none) hl
  · simp
  · simp [Pc.inCommit]
  · simp
  · simp

-- A call of a transaction that is over, or the end of one without a commit.
theorem Inv.reply_gone (h : Inv init s) (hcommit : (s.pc id).inCommit = false) {call : Call}
    {status : Status} (hstatus : status = .OK → call = .abort) (out : Str) :
    Inv init ((s.setInfo id none).reply id call status out) := by
  have hacc : ∀ other, ((s.setInfo id none).reply id call status out).accesses other = s.accesses other :=
    fun other => congrFun (accesses_other [] s.replies hstatus) other
  obtain ⟨hlogical, hcommitting⟩ := logical_setPc hcommit (show Pc.idle.inCommit = false from rfl)
  have hlogical : ((s.setInfo id none).reply id call status out).logical = s.logical := hlogical
  have hcommitting : ((s.setInfo id none).reply id call status out).committing = s.committing :=
    hcommitting
  refine h.change id (fun other he => reply_pc_of_ne _ _ _ _ _ _ he)
    (fun other he => setInfo_infos_of_ne s _ _ _ he) (fun other _ => hacc other) le_rfl
    (fun _ _ ht => ⟨ht, rfl⟩) (own_gone s id call status out) ?_
  rw [hlogical, hcommitting]
  exact (h.history.other hstatus).setLive le_rfl (fun other _ hl => (live_of_setInfo_none hl).1)

theorem setInfo_self {info : Option Transaction} (h : s.transactionInfos id = info) :
    s.setInfo id info = s := by
  simp [State.setInfo, ← h]

theorem Inv.get (h : Inv init s) (hidle : s.pc id = .idle) {info : Transaction}
    (hinfo : s.transactionInfos id = some info) (key : Str) : Inv init (get s id info key) := by
  have htracks := (h.own id).tracks info hinfo
  have haccess : ∀ out, (⟨id, .get key, .OK, out⟩ : Reply).access [] = some (.read (hashOcc key) out) :=
    fun _ => rfl
  obtain ⟨value, hvalue, hget⟩ | ⟨old, -, -, hget⟩ | ⟨hwrite, hread, hget⟩ := get_cases s id info key
  · rw [hget, ← setInfo_self hinfo]
    refine h.reply_access hidle hinfo (haccess value) (htracks.read ?_)
    intro store hagree
    rcases hvalue with hwrite | ⟨hwrite, hread⟩
    · simp [overlay, hwrite]
    · simp only [overlay, hwrite, Option.getD_none]
      exact hagree _ _ hread
  · rw [hget]
    exact h.reply_gone (by rw [hidle]; rfl) (by simp) _
  · rw [hget]
    refine h.reply_access hidle hinfo (haccess _) ((htracks.mono ?_).read ?_)
    · intro slot value hv
      have he : slot ≠ hashOcc key := by
        rintro rfl
        rw [hread] at hv
        cases hv
      simpa [he] using hv
    · intro store hagree
      simp only [overlay, hwrite, Option.getD_none]
      exact hagree (hashOcc key) _ (by simp)

theorem Inv.setPc_preparing (h : Inv init s) (hidle : s.pc id = .idle) (hlive : s.Live id) :
    Inv init (s.setPc id .preparing) := by
  have hid := h.own id
  have hcommit : (s.pc id).inCommit = false := by rw [hidle]; rfl
  obtain ⟨hlogical, hcommitting⟩ := logical_setPc hcommit (show Pc.preparing.inCommit = false from rfl)
  refine h.change id (fun other he => setPc_pc_of_ne s id other _ he) (fun _ _ => rfl) (fun _ _ => rfl)
    le_rfl (fun _ _ ht => ⟨ht, rfl⟩) ?_ ?_
  · constructor
    · exact hid.born
    · intro _
      exact hlive
    · simp [Pc.inCommit]
    · exact hid.tracks
    · simp
  · rw [hlogical, hcommitting]
    exact h.history

theorem Inv.receive (h : Inv init s) {call : Call} (hs : receive s id call = some next) :
    Inv init next := by
  obtain ⟨hidle, hcases⟩ := receive_cases hs
  have hcommit : (s.pc id).inCommit = false := by rw [hidle]; rfl
  rcases hcases with ⟨hnone, rfl⟩ | ⟨info, hinfo, hcall⟩
  · have hgone := h.reply_gone hcommit (show Status.TRANSIDINV = .OK → call = .abort by simp) []
    rwa [setInfo_self hnone] at hgone
  · obtain ⟨key, rfl, rfl⟩ | ⟨ino, value, haccess, rfl⟩ | ⟨rfl, rfl⟩ | ⟨rfl, rfl⟩ := hcall
    · exact h.get hidle hinfo key
    · exact h.reply_access hidle hinfo haccess (((h.own id).tracks info hinfo).write ino value)
    · exact h.setPc_preparing hidle (by simp [State.Live, hinfo])
    · exact h.reply_gone hcommit (fun _ => rfl) []

theorem Inv.commitStart (h : Inv init s) (hs : commitStart s id = some next) : Inv init next := by
  obtain ⟨info, hpc, hinfo, hfree, rfl⟩ := commitStart_cases hs
  have hid := h.own id
  refine h.change id (fun other he => setPc_pc_of_ne _ id other _ he) (fun _ _ => rfl) (fun _ _ => rfl)
    le_rfl (fun other _ ht => by rw [hfree] at ht; cases ht) ?_ ?_
  · constructor
    · exact hid.born
    · intro _
      exact hid.busy (by simp [hpc])
    · intro _
      rfl
    · exact hid.tracks
    · intro info' rest ino value hi hv hread
      rw [setPc_pc_self, Pc.validating.injEq] at hv
      have hi : s.transactionInfos id = some info' := hi
      rw [hinfo] at hi
      cases hi
      rw [← hv]
      exact .inl (mem_entries.mpr hread)
  · have hhistory := h.history
    rw [show s.committing = [] by simp [State.committing, hfree],
      show s.logical = s.ec by simp [State.logical, hfree]] at hhistory
    have hlogical : ({ s with lcWriteset := some id }.setPc id
        (.validating (entries info.readLog))).logical = s.ec := by
      simp [State.logical, State.setPc, Pc.pending, writeBack]
    have hcommitting : ({ s with lcWriteset := some id }.setPc id
        (.validating (entries info.readLog))).committing = [] := by
      simp [State.committing, State.setPc, Pc.isWriting]
    rw [hlogical, hcommitting]
    exact hhistory

theorem Inv.commit_alone (h : Inv init s) (hcommit : (s.pc id).inCommit = true) {other : Tid} (he : other ≠ id) :
    s.lcWriteset ≠ some other := by
  intro ht
  rw [(h.own id).turn hcommit] at ht
  exact he (Option.some.inj ht).symm

-- A commit goes on. No other transaction is in its commit, so the store may change under it.
theorem Inv.commit_on (h : Inv init s) {pc : Pc} {ec : Slot → Str} (hcommit : (s.pc id).inCommit = true)
    (hvalidated : ∀ info rest ino value, s.transactionInfos id = some info → pc = .validating rest →
      info.readLog ino = some value → (ino, value) ∈ rest ∨ ec ino = value)
    (hhistory : History init [] s.transId s.Live s.replies ({ s with ec := ec }.setPc id pc).committing
      ({ s with ec := ec }.setPc id pc).logical) :
    Inv init ({ s with ec := ec }.setPc id pc) := by
  have hid := h.own id
  refine h.change id (fun other he => setPc_pc_of_ne _ id other _ he) (fun _ _ => rfl) (fun _ _ => rfl)
    le_rfl (fun other he ht => absurd ht (h.commit_alone hcommit he)) ?_ hhistory
  constructor
  · exact hid.born
  · intro _
    refine hid.busy fun hidle => ?_
    rw [hidle] at hcommit
    cases hcommit
  · intro _
    exact hid.turn hcommit
  · exact hid.tracks
  · intro info rest ino value hinfo hpc hread
    rw [setPc_pc_self] at hpc
    exact hvalidated info rest ino value hinfo hpc hread

-- Passing the last check is the point at which the transaction takes effect.
theorem Inv.validateEnd (h : Inv init s) {info : Transaction} (hpc : s.pc id = .validating [])
    (hinfo : s.transactionInfos id = some info) :
    Inv init (s.setPc id (.writing (entries info.writeLog))) := by
  have hid := h.own id
  have hset := hid.turn (by rw [hpc]; rfl)
  have hagree : Agrees info.readLog s.ec := by
    intro ino value hread
    exact (hid.validated info [] ino value hinfo hpc hread).resolve_left (by simp)
  obtain ⟨hfaithful, hreplay⟩ := hid.tracks info hinfo s.ec hagree
  refine h.commit_on (by rw [hpc]; rfl) (by simp) ?_
  have hhistory := h.history
  rw [show s.committing = [] by simp [State.committing, hset, hpc, Pc.isWriting],
    show s.logical = s.ec by simp [State.logical, hset, hpc, Pc.pending, writeBack]] at hhistory
  have hnext : (s.setPc id (.writing (entries info.writeLog))).logical = replay s.ec (s.accesses id) := by
    rw [hreplay, ← writeBack_entries]
    simp [State.logical, State.setPc, hset, Pc.pending]
  have hcommitting : (s.setPc id (.writing (entries info.writeLog))).committing = [id] := by
    simp [State.committing, State.setPc, hset, Pc.isWriting]
  rw [hnext, hcommitting]
  exact hhistory.commitPoint hfaithful

theorem Inv.validate (h : Inv init s) (hs : validate s id = some next) : Inv init next := by
  rcases validate_cases hs with ⟨ino, value, rest, hpc, hcheck⟩ | ⟨info, hpc, hinfo, rfl⟩
  · have hid := h.own id
    have hset := hid.turn (by rw [hpc]; rfl)
    have hlogical : s.logical = s.ec := by simp [State.logical, hset, hpc, Pc.pending, writeBack]
    have hcommitting : s.committing = [] := by simp [State.committing, hset, hpc, Pc.isWriting]
    have hhistory := h.history
    rw [hlogical, hcommitting] at hhistory
    have hcommit : (s.pc id).inCommit = true := by rw [hpc]; rfl
    rcases hcheck with ⟨hsame, rfl⟩ | ⟨-, rfl⟩
    · refine h.commit_on hcommit ?_ ?_
      · intro info rest' ino' value' hi hv hread
        cases hv
        rcases hid.validated info _ ino' value' hi hpc hread with hm | he
        · rcases List.mem_cons.mp hm with heq | hm
          · cases heq
            exact .inr hsame
          · exact .inl hm
        · exact .inr he
      · have hlogical' : (s.setPc id (.validating rest)).logical = s.ec := by
          simp [State.logical, State.setPc, hset, Pc.pending, writeBack]
        have hcommitting' : (s.setPc id (.validating rest)).committing = [] := by
          simp [State.committing, State.setPc, hset, Pc.isWriting]
        rw [hlogical', hcommitting']
        exact hhistory
    · have hstatus : Status.ABORT = .OK → Call.commit = .abort := by simp
      have hacc : ∀ other, (({ s with lcWriteset := none }.setInfo id none).reply id .commit .ABORT
          []).accesses other = s.accesses other :=
        fun other => congrFun (accesses_other [] s.replies hstatus) other
      refine h.change id (fun other he => reply_pc_of_ne _ _ _ _ _ _ he)
        (fun other he => setInfo_infos_of_ne _ _ _ _ he) (fun other _ => hacc other) le_rfl
        (fun other he ht => absurd ht (h.commit_alone hcommit he)) (own_gone _ _ _ _ _) ?_
      exact (hhistory.other hstatus).setLive le_rfl (fun other _ hl => (live_of_setInfo_none hl).1)
  · exact h.validateEnd hpc hinfo

theorem Inv.put (h : Inv init s) (hs : put s id = some next) : Inv init next := by
  rcases put_cases hs with ⟨ino, value, rest, hpc, rfl⟩ | ⟨hpc, rfl⟩
  · have hcommit : (s.pc id).inCommit = true := by rw [hpc]; rfl
    have hset := (h.own id).turn hcommit
    have hlogical : ({ s with ec := Function.update s.ec ino value }.setPc id (.writing rest)).logical =
        s.logical := by
      simp [State.logical, State.setPc, hset, hpc, Pc.pending, writeBack]
    have hcommitting : ({ s with ec := Function.update s.ec ino value }.setPc id
        (.writing rest)).committing = s.committing := by
      simp [State.committing, State.setPc, hset, hpc, Pc.isWriting]
    refine h.commit_on hcommit (by simp) ?_
    rw [hlogical, hcommitting]
    exact h.history
  · have hid := h.own id
    have hcommit : (s.pc id).inCommit = true := by rw [hpc]; rfl
    have hset := hid.turn hcommit
    have hlive := hid.busy (by simp [hpc])
    have hlogical : s.logical = s.ec := by simp [State.logical, hset, hpc, Pc.pending, writeBack]
    have hcommitting : s.committing = [id] := by simp [State.committing, hset, hpc, Pc.isWriting]
    have hacc : ∀ other, (({ s with lcWriteset := none }.setInfo id none).reply id .commit .OK
        []).accesses other = s.accesses other := by
      intro other
      simp [State.accesses, State.reply, State.setInfo, accesses_append, Reply.access]
    refine h.change id (fun other he => reply_pc_of_ne _ _ _ _ _ _ he)
      (fun other he => setInfo_infos_of_ne _ _ _ _ he) (fun other _ => hacc other) le_rfl
      (fun other he ht => absurd ht (h.commit_alone hcommit he)) (own_gone _ _ _ _ _) ?_
    have hhistory := h.history
    rw [hcommitting, hlogical] at hhistory
    exact hhistory.commitEnd [] (hid.born hlive) (fun other hl => live_of_setInfo_none hl)

theorem Inv.step (h : Inv init s) {event : Event} (hs : Step s event next) : Inv init next := by
  unfold Step Occ.step at hs
  cases event with
  | begin => exact h.begin hs
  | call id call => exact h.receive hs
  | commitStart id => exact h.commitStart hs
  | validate id => exact h.validate hs
  | put id => exact h.put hs

theorem reachable_inv (hr : Reachable Step (· = start init) s) : Inv init s := by
  refine hr.invariant (Inv init) ?_ ?_
  · rintro s rfl
    exact Inv.start init
  · intro s event next h hs
    exact h.step hs

-- The transactions whose commit has returned OK, one after another in that order, read
-- what they read and leave the store as it is whenever no commit is writing.
theorem occ_serializable (init : Slot → Str) (s : State) (hr : Reachable Step (· = start init) s)
    (hquiet : ∀ id rest, s.pc id ≠ .writing rest) :
    SerialRun init ((commits s.replies).map s.accesses) s.ec := by
  have h := reachable_inv hr
  have hpending : ∀ id, (s.pc id).pending = [] ∧ (s.pc id).isWriting = false := by
    intro id
    cases hp : s.pc id with
    | writing rest => exact absurd hp (hquiet id rest)
    | _ => exact ⟨rfl, rfl⟩
  have hlogical : s.logical = s.ec := by
    unfold State.logical
    split
    · rfl
    · rw [(hpending _).1]
      rfl
  have hcommitting : s.committing = [] := by
    unfold State.committing
    split
    · rfl
    · simp [(hpending _).2]
  have hserial := h.history.serial
  rw [hcommitting, List.append_nil, hlogical] at hserial
  exact hserial

-- Transactions 0 and 1 both read the empty key and set it. Transaction 0 commits first,
-- and transaction 1 is refused.
def conflicting : List Event :=
  [.begin, .begin, .call 0 (.get []), .call 1 (.get []), .call 0 (.set [] [7]), .call 1 (.set [] [8]),
    .call 0 .commit, .call 1 .commit, .commitStart 0, .validate 0, .validate 0, .put 0, .put 0,
    .commitStart 1, .validate 1]

theorem occ_serializable_conflict :
    ∃ s : State, commits s.replies = [0] ∧ s.ec (Ydb.hash []) = [7] ∧
      SerialRun (fun _ => []) ((commits s.replies).map s.accesses) s.ec := by
  have hrun : (execute step (start fun _ => []) conflicting).map
      (fun s => (commits s.replies, s.ec (Ydb.hash []), s.lcWriteset)) = some ([0], [7], none) := by
    decide +kernel
  obtain ⟨s, hs, hfields⟩ := Option.map_eq_some_iff.mp hrun
  simp only [Prod.mk.injEq] at hfields
  obtain ⟨hcommits, hec, hset⟩ := hfields
  have hr : Reachable Step (· = start fun _ => []) s := Reachable.computed (.start rfl) hs
  refine ⟨s, hcommits, hec, occ_serializable _ s hr ?_⟩
  intro id rest hpc
  have hturn := ((reachable_inv hr).own id).turn (by rw [hpc]; rfl)
  rw [hset] at hturn
  cases hturn

end CseLabs.Occ
