import CseLabs.TwoPhase
import CseLabs.Ydb.History

namespace CseLabs.TwoPhase

open Ydb

-- The slot operation that a call has not yet entered in the books.
def Pc.op : Pc → Option Op
  | .checking op | .acquiring op | .granted op => some op
  | _ => none

-- The thread has DEPENDENCY and is in a loop over the slots of its transaction.
def Pc.inLoop : Pc → Bool
  | .releasing _ _ | .committing _ => true
  | _ => false

def Pc.isCommitting : Pc → Bool
  | .committing _ => true
  | _ => false

-- The slots that lock_handlers gives to a transaction.
def Pc.recorded (locks : Finset Slot) : Pc → Finset Slot
  | .releasing _ rest => rest.toFinset
  | .committing rest => (rest.map Prod.fst).toFinset
  | _ => locks

-- The slots whose lock a transaction holds.
def Pc.owned (locks : Finset Slot) : Pc → Finset Slot
  | .granted op => insert op.ino locks
  | pc => pc.recorded locks

def Pc.loopSlots : Pc → List Slot
  | .releasing _ rest => rest
  | .committing rest => rest.map Prod.fst
  | _ => []

def State.locks (s : State) (id : Tid) : Finset Slot :=
  ((s.transactionInfos id).map Transaction.locks).getD ∅

-- What holds of one transaction, whatever the others do.
structure Own (s : State) (id : Tid) : Prop where
  born : s.transactionInfos id ≠ none → id < s.transId
  busy : s.pc id ≠ .idle → s.transactionInfos id ≠ none
  turn : (s.pc id).inLoop = true → s.lcDependency = some id
  new : ∀ op, (s.pc id).op = some op → op.ino ∉ s.locks id
  logged : ∀ info ino, s.transactionInfos id = some info → (ino ∈ info.locks ↔ info.log ino ≠ none)
  held : ∀ ino, s.lc ino = some id ↔ ino ∈ (s.pc id).owned (s.locks id)
  handled : ∀ ino, s.lockHandlers ino = some id ↔ ino ∈ (s.pc id).recorded (s.locks id)
  nodup : (s.pc id).loopSlots.Nodup
  subset : ∀ ino ∈ (s.pc id).loopSlots, ino ∈ s.locks id

def Locks (s : State) : Prop := ∀ id, Own s id

section Projections

variable (s : State) (id other : Tid) (pc : Pc) (call : Call) (status : Status) (value : Str)
  (info : Option Transaction) (ino : Slot)

@[simp] theorem setPc_pc_self : (s.setPc id pc).pc id = pc := by simp [State.setPc]
@[simp] theorem setPc_infos : (s.setPc id pc).transactionInfos = s.transactionInfos := rfl
@[simp] theorem setPc_locks : (s.setPc id pc).locks other = s.locks other := rfl
@[simp] theorem setPc_lc : (s.setPc id pc).lc = s.lc := rfl
@[simp] theorem setPc_lockHandlers : (s.setPc id pc).lockHandlers = s.lockHandlers := rfl
@[simp] theorem setPc_lcDependency : (s.setPc id pc).lcDependency = s.lcDependency := rfl
@[simp] theorem setPc_transId : (s.setPc id pc).transId = s.transId := rfl
@[simp] theorem setPc_replies : (s.setPc id pc).replies = s.replies := rfl
@[simp] theorem setPc_ec : (s.setPc id pc).ec = s.ec := rfl
@[simp] theorem setPc_dependency : (s.setPc id pc).dependency = s.dependency := rfl

theorem setPc_pc_of_ne (h : other ≠ id) : (s.setPc id pc).pc other = s.pc other := by
  simp [State.setPc, h]

@[simp] theorem reply_pc_self : (s.reply id call status value).pc id = .idle := by simp [State.reply]
@[simp] theorem reply_infos : (s.reply id call status value).transactionInfos = s.transactionInfos := rfl
@[simp] theorem reply_locks : (s.reply id call status value).locks other = s.locks other := rfl
@[simp] theorem reply_lc : (s.reply id call status value).lc = s.lc := rfl
@[simp] theorem reply_lockHandlers : (s.reply id call status value).lockHandlers = s.lockHandlers := rfl
@[simp] theorem reply_lcDependency : (s.reply id call status value).lcDependency = s.lcDependency := rfl
@[simp] theorem reply_transId : (s.reply id call status value).transId = s.transId := rfl
@[simp] theorem reply_ec : (s.reply id call status value).ec = s.ec := rfl
@[simp] theorem reply_dependency : (s.reply id call status value).dependency = s.dependency := rfl

theorem reply_pc_of_ne (h : other ≠ id) : (s.reply id call status value).pc other = s.pc other := by
  simp [State.reply, h]

@[simp] theorem setInfo_infos_self : (s.setInfo id info).transactionInfos id = info := by
  simp [State.setInfo]
@[simp] theorem setInfo_pc : (s.setInfo id info).pc = s.pc := rfl
@[simp] theorem setInfo_lc : (s.setInfo id info).lc = s.lc := rfl
@[simp] theorem setInfo_lockHandlers : (s.setInfo id info).lockHandlers = s.lockHandlers := rfl
@[simp] theorem setInfo_lcDependency : (s.setInfo id info).lcDependency = s.lcDependency := rfl
@[simp] theorem setInfo_transId : (s.setInfo id info).transId = s.transId := rfl
@[simp] theorem setInfo_replies : (s.setInfo id info).replies = s.replies := rfl
@[simp] theorem setInfo_ec : (s.setInfo id info).ec = s.ec := rfl
@[simp] theorem setInfo_dependency : (s.setInfo id info).dependency = s.dependency := rfl

theorem setInfo_infos_of_ne (h : other ≠ id) :
    (s.setInfo id info).transactionInfos other = s.transactionInfos other := by
  simp [State.setInfo, h]

@[simp] theorem unlock_locks : (s.unlock ino).locks id = s.locks id := rfl

theorem locks_of_some {info : Transaction} (h : s.transactionInfos id = some info) :
    s.locks id = info.locks := by
  simp [State.locks, h]

theorem locks_of_none (h : s.transactionInfos id = none) : s.locks id = ∅ := by
  simp [State.locks, h]

@[simp] theorem lockList_mem (trans : Transaction) : ino ∈ trans.lockList ↔ ino ∈ trans.locks := by
  simp [Transaction.lockList]

theorem lockList_nodup (trans : Transaction) : trans.lockList.Nodup :=
  (List.nodup_finRange _).filter _

end Projections

variable {s next : State} {id : Tid}

section Cases

theorem begin_cases (hs : transactionBegin s = some next) :
    next = { s.setInfo s.transId (some {}) with transId := s.transId + 1 } := by
  unfold transactionBegin at hs
  split at hs
  · cases hs
    rfl
  · cases hs

-- The value that an operation puts in the log, and the value that it returns.
def Op.logged (op : Op) (read : Str) : Str :=
  match op with
  | .get _ => read
  | .set _ value => value
  | .del _ => REMOVESTRING

def Op.out (op : Op) (read : Str) : Str :=
  match op with
  | .get _ => read
  | _ => []

-- An operation on a slot that is in the log, or one that has to lock it first.
theorem access_cases {info : Transaction} {op : Op} (hinfo : s.transactionInfos id = some info)
    (hs : access s id info op = some next) :
    (op.ino ∉ info.locks ∧ next = s.setPc id (.checking op)) ∨
      op.ino ∈ info.locks ∧ ∃ old, info.log op.ino = some old ∧
        next = (s.setInfo id (some { info with
          log := Function.update info.log op.ino (some (op.logged old)) })).reply id op.call .OK (op.out old) := by
  unfold access at hs
  split at hs
  · rename_i hmem
    unfold locked at hs
    simp only [Option.bind_eq_bind, Option.bind_eq_some_iff] at hs
    obtain ⟨old, hold, hs⟩ := hs
    refine .inr ⟨hmem, old, hold, ?_⟩
    cases op with
    | get key =>
        cases hs
        -- the value goes where it is already
        have hsame : s.setInfo id (some { info with
            log := Function.update info.log (Op.get key).ino (some ((Op.get key).logged old)) }) = s := by
          have hlog : Function.update info.log (Op.get key).ino (some ((Op.get key).logged old)) = info.log := by
            rw [show (Op.get key).logged old = old from rfl, ← hold, Function.update_eq_self]
          rw [hlog, State.setInfo, ← hinfo, Function.update_eq_self]
        rw [hsame]
        rfl
    | set key value =>
        cases hs
        rfl
    | del key =>
        cases hs
        rfl
  · rename_i hmem
    cases hs
    exact .inl ⟨hmem, rfl⟩

theorem receive_cases {call : Call} (hs : receive s id call = some next) :
    s.pc id = .idle ∧
      ((s.transactionInfos id = none ∧ next = s.reply id call .TRANSIDINV []) ∨
        ∃ info, s.transactionInfos id = some info ∧
          ((∃ op, call = op.call ∧ access s id info op = some next) ∨
            (call = .commit ∧ next = s.setPc id .preparing) ∨
              call = .abort ∧ next = s.setPc id (.aborting .abort))) := by
  unfold receive at hs
  split at hs
  · cases hs
  · rename_i hidle
    refine ⟨by simpa using hidle, ?_⟩
    split at hs
    · rename_i hnone
      cases hs
      exact .inl ⟨hnone, rfl⟩
    · rename_i info hinfo
      refine .inr ⟨info, hinfo, ?_⟩
      cases call with
      | get key => exact .inl ⟨.get key, rfl, hs⟩
      | set key value => exact .inl ⟨.set key value, rfl, hs⟩
      | del key => exact .inl ⟨.del key, rfl, hs⟩
      | commit =>
          cases hs
          exact .inr (.inl ⟨rfl, rfl⟩)
      | abort =>
          cases hs
          exact .inr (.inr ⟨rfl, rfl⟩)

theorem checkCycle_cases {ino : Slot} {cycle : Bool} (hs : checkCycle s id ino = some (cycle, next)) :
    s.lockHandlers ino = none ∧ cycle = false ∧ next = s ∨
      ∃ id2, s.lockHandlers ino = some id2 ∧ id2 < s.transId ∧
        dfs s.dependency s.transId (s.transId + 1) id2 id = some cycle ∧
        next = if cycle then s else { s with
          dependency := Function.update s.dependency id (Function.update (s.dependency id) id2 true) } := by
  unfold checkCycle at hs
  split at hs
  · rename_i hnone
    cases hs
    exact .inl ⟨hnone, rfl, rfl⟩
  · rename_i id2 hsome
    split at hs
    · rename_i hlt
      simp only [Option.bind_eq_bind, Option.bind_eq_some_iff] at hs
      obtain ⟨found, hdfs, hs⟩ := hs
      refine .inr ⟨id2, hsome, hlt, ?_⟩
      split at hs
      · rename_i hfound
        cases hs
        exact ⟨by rw [hdfs, hfound], rfl⟩
      · rename_i hfound
        cases hs
        exact ⟨by rw [hdfs]; simpa using hfound, rfl⟩
    · cases hs

-- The call goes on after checkCycle, with one more dependency or none.
theorem runCheckCycle_cases (hs : runCheckCycle s id = some next) :
    ∃ op cycle mid, s.pc id = .checking op ∧ s.lcDependency = none ∧
      checkCycle s id op.ino = some (cycle, mid) ∧
      next = mid.setPc id (if cycle then .aborting op.call else .acquiring op) := by
  unfold runCheckCycle at hs
  split at hs
  · rename_i op hpc
    split at hs
    · rename_i hdep
      simp only [Option.bind_eq_bind, Option.bind_eq_some_iff] at hs
      obtain ⟨⟨cycle, mid⟩, hcheck, hs⟩ := hs
      cases hs
      exact ⟨op, cycle, mid, hpc, hdep, hcheck, rfl⟩
    · cases hs
  · cases hs

theorem acquire_cases (hs : acquire s id = some next) :
    ∃ op, s.pc id = .acquiring op ∧ s.lc op.ino = none ∧
      next = { s with lc := Function.update s.lc op.ino (some id) }.setPc id (.granted op) := by
  unfold acquire at hs
  split at hs
  · rename_i op hpc
    split at hs
    · rename_i hfree
      cases hs
      exact ⟨op, hpc, hfree, rfl⟩
    · cases hs
  · cases hs

theorem record_cases (hs : record s id = some next) :
    ∃ op info, s.pc id = .granted op ∧ s.transactionInfos id = some info ∧
      next = (({ s with lockHandlers := Function.update s.lockHandlers op.ino (some id) }).setInfo id
        (some { locks := insert op.ino info.locks
                log := Function.update info.log op.ino (some (op.logged (s.ec op.ino))) })).reply
        id op.call .OK (op.out (s.ec op.ino)) := by
  unfold record at hs
  split at hs
  · rename_i op hpc
    simp only [Option.bind_eq_bind, Option.bind_eq_some_iff] at hs
    obtain ⟨info, hinfo, hs⟩ := hs
    cases hs
    refine ⟨op, info, hpc, hinfo, ?_⟩
    cases op <;> rfl
  · cases hs

theorem releaseStart_cases (hs : releaseStart s id = some next) :
    ∃ call info, s.pc id = .aborting call ∧ s.transactionInfos id = some info ∧ s.lcDependency = none ∧
      next = { s.clearDependency id with lcDependency := some id }.setPc id (.releasing call info.lockList) := by
  unfold releaseStart at hs
  split at hs
  · rename_i call hpc
    simp only [Option.bind_eq_bind, Option.bind_eq_some_iff] at hs
    obtain ⟨info, hinfo, hs⟩ := hs
    split at hs
    · rename_i hfree
      cases hs
      exact ⟨call, info, hpc, hinfo, hfree, rfl⟩
    · cases hs
  · cases hs

theorem releaseEntry_cases (hs : releaseEntry s id = some next) :
    ∃ call ino rest, s.pc id = .releasing call (ino :: rest) ∧
      next = (s.unlock ino).setPc id (.releasing call rest) := by
  unfold releaseEntry at hs
  split at hs
  · rename_i call ino rest hpc
    cases hs
    exact ⟨call, ino, rest, hpc, rfl⟩
  · cases hs

theorem releaseEnd_cases (hs : releaseEnd s id = some next) :
    ∃ call, s.pc id = .releasing call [] ∧
      next = ({ s with lcDependency := none }.setInfo id none).reply id call
        (if call = Call.abort then Status.OK else .ABORT) [] := by
  unfold releaseEnd at hs
  split at hs
  · rename_i call hpc
    cases hs
    exact ⟨call, hpc, rfl⟩
  · cases hs

theorem commitStart_cases (hs : commitStart s id = some next) :
    ∃ info, s.pc id = .preparing ∧ s.transactionInfos id = some info ∧ s.lcDependency = none ∧
      next = { s with lcDependency := some id }.setPc id (.committing (entries info.log)) := by
  unfold commitStart at hs
  split at hs
  · rename_i hpc
    simp only [Option.bind_eq_bind, Option.bind_eq_some_iff] at hs
    obtain ⟨info, hinfo, hs⟩ := hs
    split at hs
    · rename_i hfree
      cases hs
      exact ⟨info, hpc, hinfo, hfree, rfl⟩
    · cases hs
  · cases hs

theorem commitEntry_cases (hs : commitEntry s id = some next) :
    ∃ ino value rest, s.pc id = .committing ((ino, value) :: rest) ∧
      next = ({ s with ec := Function.update s.ec ino (if value = REMOVESTRING then [] else value) }.unlock ino).setPc
        id (.committing rest) := by
  unfold commitEntry at hs
  split at hs
  · rename_i ino value rest hpc
    cases hs
    exact ⟨ino, value, rest, hpc, rfl⟩
  · cases hs

theorem commitEnd_cases (hs : commitEnd s id = some next) :
    s.pc id = .committing [] ∧
      next = ({ s.clearDependency id with lcDependency := none }.setInfo id none).reply id .commit .OK [] := by
  unfold commitEnd at hs
  split at hs
  · rename_i hpc
    cases hs
    exact ⟨hpc, rfl⟩
  · cases hs

end Cases

-- A transaction that a step leaves alone.
theorem Own.frame (h : Own s id) (hpc : next.pc id = s.pc id)
    (hinfo : next.transactionInfos id = s.transactionInfos id) (htid : s.transId ≤ next.transId)
    (hdep : s.lcDependency = some id → next.lcDependency = some id)
    (hlc : ∀ ino, next.lc ino = some id ↔ s.lc ino = some id)
    (hhan : ∀ ino, next.lockHandlers ino = some id ↔ s.lockHandlers ino = some id) :
    Own next id := by
  have hlocks : next.locks id = s.locks id := by simp [State.locks, hinfo]
  constructor
  · intro hi
    exact (h.born (hinfo ▸ hi)).trans_le htid
  · rw [hpc, hinfo]
    exact h.busy
  · intro hp
    exact hdep (h.turn (hpc ▸ hp))
  · rw [hpc, hlocks]
    exact h.new
  · rw [hinfo]
    exact h.logged
  · intro ino
    rw [hpc, hlocks, hlc]
    exact h.held ino
  · intro ino
    rw [hpc, hlocks, hhan]
    exact h.handled ino
  · rw [hpc]
    exact h.nodup
  · rw [hpc, hlocks]
    exact h.subset

theorem recorded_subset_owned {pc : Pc} {locks : Finset Slot} {ino : Slot}
    (h : ino ∈ pc.recorded locks) : ino ∈ pc.owned locks := by
  cases pc with
  | granted op => exact Finset.mem_insert_of_mem h
  | _ => exact h

-- A step of one transaction.
theorem Locks.move (h : Locks s) (id : Tid) (hpc : ∀ other, other ≠ id → next.pc other = s.pc other)
    (hinfo : ∀ other, other ≠ id → next.transactionInfos other = s.transactionInfos other)
    (htid : s.transId ≤ next.transId)
    (hdep : ∀ other, other ≠ id → s.lcDependency = some other → next.lcDependency = some other)
    (hlc : ∀ other ino, other ≠ id → (next.lc ino = some other ↔ s.lc ino = some other))
    (hhan : ∀ other ino, other ≠ id →
      (next.lockHandlers ino = some other ↔ s.lockHandlers ino = some other))
    (hself : Own next id) : Locks next := by
  intro other
  by_cases he : other = id
  · exact he ▸ hself
  · exact (h other).frame (hpc other he) (hinfo other he) htid (hdep other he)
      (fun ino => hlc other ino he) (fun ino => hhan other ino he)

-- The call of a transaction goes on and nothing else changes hands.
theorem Locks.setPc (h : Locks s) {pc : Pc} (hinfo : s.transactionInfos id ≠ none)
    (hop : ∀ op, pc.op = some op → op.ino ∉ s.locks id)
    (howned : pc.owned (s.locks id) = (s.pc id).owned (s.locks id))
    (hrec : pc.recorded (s.locks id) = (s.pc id).recorded (s.locks id))
    (hloop : pc.inLoop = false) (hslots : pc.loopSlots = []) : Locks (s.setPc id pc) := by
  refine h.move id (fun other he => setPc_pc_of_ne s id other pc he) (by simp) le_rfl (by simp) (by simp)
    (by simp) ?_
  have hid := h id
  constructor
  · exact hid.born
  · intro _
    exact hinfo
  · simp [hloop]
  · simpa using hop
  · exact hid.logged
  · intro ino
    rw [setPc_pc_self, setPc_locks, howned]
    exact hid.held ino
  · intro ino
    rw [setPc_pc_self, setPc_locks, hrec]
    exact hid.handled ino
  · simp [hslots]
  · simp [hslots]

-- dependency is not looked at here.
theorem Locks.setDependency (h : Locks s) (dependency : Tid → Tid → Bool) :
    Locks { s with dependency := dependency } :=
  fun id => (h id).frame rfl rfl le_rfl (fun hd => hd) (fun _ => Iff.rfl) (fun _ => Iff.rfl)

theorem Locks.reply_idle (h : Locks s) (hidle : s.pc id = .idle) (call : Call) (status : Status)
    (value : Str) : Locks (s.reply id call status value) := by
  have hpc : (s.reply id call status value).pc = s.pc := by
    simp [State.reply, ← hidle]
  exact fun other => (h other).frame (by rw [hpc]) rfl le_rfl (fun hd => hd) (fun _ => Iff.rfl)
    (fun _ => Iff.rfl)

theorem Locks.start (ec : Slot → Str) : Locks (start ec) := by
  intro id
  constructor <;> simp [TwoPhase.start, Pc.inLoop, Pc.op, Pc.owned, Pc.recorded, Pc.loopSlots, State.locks]

theorem Locks.begin (h : Locks s) (hs : transactionBegin s = some next) : Locks next := by
  obtain rfl := begin_cases hs
  have hid := h s.transId
  have hnone : s.transactionInfos s.transId = none := by
    by_contra hi
    exact absurd (hid.born hi) (lt_irrefl _)
  have hidle : s.pc s.transId = .idle := by
    by_contra hp
    exact hid.busy hp hnone
  have hlocks : s.locks s.transId = ∅ := locks_of_none s _ hnone
  refine h.move s.transId (fun _ _ => rfl) (fun other he => setInfo_infos_of_ne s _ _ _ he)
    (Nat.le_succ _) (fun _ _ hd => hd) (fun _ _ _ => Iff.rfl) (fun _ _ _ => Iff.rfl) ?_
  have hnew : ({ s.setInfo s.transId (some {}) with transId := s.transId + 1 } : State).locks
      s.transId = ∅ := by
    simp [State.locks, State.setInfo]
  constructor
  · intro _
    exact Nat.lt_succ_self _
  · simp [State.setInfo]
  · simp [State.setInfo, hidle, Pc.inLoop]
  · simp [State.setInfo, hidle, Pc.op]
  · intro info ino hi
    simp only [State.setInfo, Function.update_self, Option.some.injEq] at hi
    subst hi
    simp
  · intro ino
    rw [hnew, ← hlocks]
    exact hid.held ino
  · intro ino
    rw [hnew, ← hlocks]
    exact hid.handled ino
  · exact hid.nodup
  · simp [State.setInfo, hidle, Pc.loopSlots]

-- A value of the log is replaced, and its keys stay.
theorem Locks.relog (h : Locks s) {info : Transaction} {ino : Slot} (hinfo : s.transactionInfos id = some info)
    (hmem : ino ∈ info.locks) (value : Str) :
    Locks (s.setInfo id (some { info with log := Function.update info.log ino (some value) })) := by
  have hid := h id
  have hlocks : (s.setInfo id (some { info with
      log := Function.update info.log ino (some value) })).locks id = s.locks id := by
    simp [State.locks, hinfo]
  refine h.move id (fun _ _ => rfl) (fun other he => setInfo_infos_of_ne s _ _ _ he) le_rfl
    (fun _ _ hd => hd) (fun _ _ _ => Iff.rfl) (fun _ _ _ => Iff.rfl) ?_
  constructor
  · intro _
    exact hid.born (by simp [hinfo])
  · simp
  · exact hid.turn
  · rw [hlocks]
    exact hid.new
  · intro info' slot hi
    simp only [setInfo_infos_self, Option.some.injEq] at hi
    subst hi
    by_cases he : slot = ino
    · simp [he, hmem]
    · simpa [he] using hid.logged info slot hinfo
  · rw [hlocks]
    exact hid.held
  · rw [hlocks]
    exact hid.handled
  · exact hid.nodup
  · rw [hlocks]
    exact hid.subset

theorem Locks.access (h : Locks s) {info : Transaction} {op : Op} (hidle : s.pc id = .idle)
    (hinfo : s.transactionInfos id = some info) (hs : access s id info op = some next) : Locks next := by
  rcases access_cases hinfo hs with ⟨hmem, rfl⟩ | ⟨hmem, old, -, rfl⟩
  · refine h.setPc (by simp [hinfo]) ?_ (by simp [hidle, Pc.owned, Pc.recorded])
      (by simp [hidle, Pc.recorded]) rfl rfl
    intro op' ho
    cases ho
    rwa [locks_of_some s id hinfo]
  · exact (h.relog hinfo hmem _).reply_idle hidle _ _ _

theorem Locks.receive (h : Locks s) {call : Call} (hs : receive s id call = some next) : Locks next := by
  obtain ⟨hidle, ⟨-, rfl⟩ | ⟨info, hinfo, ⟨op, rfl, haccess⟩ | ⟨-, rfl⟩ | ⟨-, rfl⟩⟩⟩ := receive_cases hs
  · exact h.reply_idle hidle _ _ _
  · exact h.access hidle hinfo haccess
  · exact h.setPc (by simp [hinfo]) (by simp [Pc.op]) (by simp [hidle, Pc.owned, Pc.recorded])
      (by simp [hidle, Pc.recorded]) rfl rfl
  · exact h.setPc (by simp [hinfo]) (by simp [Pc.op]) (by simp [hidle, Pc.owned, Pc.recorded])
      (by simp [hidle, Pc.recorded]) rfl rfl

theorem checkCycle_eq_setDependency {ino : Slot} {cycle : Bool}
    (hs : checkCycle s id ino = some (cycle, next)) :
    ∃ dependency, next = { s with dependency := dependency } := by
  rcases checkCycle_cases hs with ⟨-, -, rfl⟩ | ⟨id2, -, -, -, rfl⟩
  · exact ⟨_, rfl⟩
  · cases cycle
    · exact ⟨_, rfl⟩
    · exact ⟨_, rfl⟩

theorem Locks.runCheckCycle (h : Locks s) (hs : runCheckCycle s id = some next) : Locks next := by
  obtain ⟨op, cycle, mid, hpc, -, hcheck, rfl⟩ := runCheckCycle_cases hs
  obtain ⟨dependency, rfl⟩ := checkCycle_eq_setDependency hcheck
  have hinfo := (h id).busy (by simp [hpc])
  have hnew := (h id).new op (by simp [hpc, Pc.op])
  cases cycle
  · refine (h.setDependency dependency).setPc hinfo ?_ (by simp [hpc, Pc.owned, Pc.recorded])
      (by simp [hpc, Pc.recorded]) rfl rfl
    intro op' ho
    cases ho
    exact hnew
  · exact (h.setDependency dependency).setPc hinfo (by simp [Pc.op])
      (by simp [hpc, Pc.owned, Pc.recorded]) (by simp [hpc, Pc.recorded]) rfl rfl

theorem Locks.acquire (h : Locks s) (hs : acquire s id = some next) : Locks next := by
  obtain ⟨op, hpc, hfree, rfl⟩ := acquire_cases hs
  have hid := h id
  refine h.move id (fun other he => setPc_pc_of_ne _ id other _ he) (by simp) le_rfl (by simp) ?_
    (by simp) ?_
  · intro other ino he
    by_cases hi : ino = op.ino
    · subst hi
      simp [hfree, Ne.symm he]
    · simp [hi]
  · constructor
    · exact hid.born
    · intro _
      exact hid.busy (by simp [hpc])
    · simp [Pc.inLoop]
    · intro op' ho
      simp only [setPc_pc_self, Pc.op, Option.some.injEq] at ho
      exact ho ▸ hid.new op (by simp [hpc, Pc.op])
    · exact hid.logged
    · intro ino
      have hold := hid.held ino
      rw [hpc] at hold
      rw [setPc_pc_self]
      by_cases hi : ino = op.ino
      · simp [hi, Pc.owned]
      · simpa [hi, Pc.owned, Pc.recorded, State.locks] using hold
    · intro ino
      have hold := hid.handled ino
      rw [hpc] at hold
      rw [setPc_pc_self]
      exact hold
    · simp [Pc.loopSlots]
    · simp [Pc.loopSlots]

theorem Locks.record (h : Locks s) (hs : record s id = some next) : Locks next := by
  obtain ⟨op, info, hpc, hinfo, rfl⟩ := record_cases hs
  have hid := h id
  have hlocks := locks_of_some s id hinfo
  have hmine := (hid.held op.ino).mpr (by simp [hpc, Pc.owned])
  refine h.move id ?_ ?_ le_rfl (by simp) (by simp) ?_ ?_
  · intro other he
    rw [reply_pc_of_ne _ _ _ _ _ _ he]
    rfl
  · intro other he
    rw [reply_infos, setInfo_infos_of_ne _ _ _ _ he]
  · intro other ino he
    by_cases hi : ino = op.ino
    · subst hi
      -- another transaction in lock_handlers would hold the lock
      have hnot : s.lockHandlers op.ino ≠ some other := by
        intro hh
        have hrec := ((h other).handled op.ino).mp hh
        have := ((h other).held op.ino).mpr (recorded_subset_owned hrec)
        rw [hmine] at this
        exact he (Option.some.inj this).symm
      simp [Ne.symm he, hnot]
    · simp [hi]
  · constructor
    · intro _
      exact hid.born (by simp [hinfo])
    · simp
    · simp [Pc.inLoop]
    · simp [Pc.op]
    · intro info' ino hi
      simp only [reply_infos, setInfo_infos_self, Option.some.injEq] at hi
      subst hi
      by_cases he : ino = op.ino
      · simp [he]
      · simpa [he] using hid.logged info ino hinfo
    · intro ino
      have hold := hid.held ino
      rw [hpc, hlocks] at hold
      simpa [State.locks, Pc.owned, Pc.recorded] using hold
    · intro ino
      have hold := hid.handled ino
      rw [hpc, hlocks] at hold
      by_cases he : ino = op.ino
      · simp [he, State.locks, Pc.recorded]
      · simpa [he, State.locks, Pc.recorded] using hold
    · simp [Pc.loopSlots]
    · simp [Pc.loopSlots]

-- A transaction gets DEPENDENCY and starts to go through its slots.
theorem Locks.enterLoop (h : Locks s) {pc : Pc} (hinfo : s.transactionInfos id ≠ none)
    (hfree : s.lcDependency = none) (hop : pc.op = none)
    (hold : (s.pc id).owned (s.locks id) = s.locks id)
    (hrec : (s.pc id).recorded (s.locks id) = s.locks id)
    (howned : pc.owned (s.locks id) = s.locks id) (hrecorded : pc.recorded (s.locks id) = s.locks id)
    (hnodup : pc.loopSlots.Nodup) (hsubset : ∀ ino ∈ pc.loopSlots, ino ∈ s.locks id) :
    Locks ({ s with lcDependency := some id }.setPc id pc) := by
  refine h.move id (fun other he => setPc_pc_of_ne _ id other _ he) (by simp) le_rfl (by simp [hfree])
    (by simp) (by simp) ?_
  have hid := h id
  have hlocks : ({ s with lcDependency := some id }.setPc id pc).locks id = s.locks id := rfl
  constructor
  · exact hid.born
  · intro _
    exact hinfo
  · simp
  · simp [hop]
  · exact hid.logged
  · intro ino
    have hheld := hid.held ino
    rw [hold] at hheld
    rw [setPc_pc_self, hlocks, howned]
    exact hheld
  · intro ino
    have hhandled := hid.handled ino
    rw [hrec] at hhandled
    rw [setPc_pc_self, hlocks, hrecorded]
    exact hhandled
  · simpa using hnodup
  · rw [setPc_pc_self, hlocks]
    exact hsubset

theorem Locks.releaseStart (h : Locks s) (hs : releaseStart s id = some next) : Locks next := by
  obtain ⟨call, info, hpc, hinfo, hfree, rfl⟩ := releaseStart_cases hs
  have hcleared : Locks (s.clearDependency id) := h.setDependency _
  have hlocks : (s.clearDependency id).locks id = info.locks := locks_of_some s id hinfo
  refine hcleared.enterLoop (by simp [State.clearDependency, hinfo]) hfree rfl ?_ ?_ ?_ ?_
    (lockList_nodup info) ?_
  · simp [State.clearDependency, hpc, Pc.owned, Pc.recorded]
  · simp [State.clearDependency, hpc, Pc.recorded]
  · ext ino
    simp [Pc.owned, Pc.recorded, hlocks]
  · ext ino
    simp [Pc.recorded, hlocks]
  · simp [Pc.loopSlots, hlocks]

theorem Locks.commitStart (h : Locks s) (hs : commitStart s id = some next) : Locks next := by
  obtain ⟨info, hpc, hinfo, hfree, rfl⟩ := commitStart_cases hs
  have hlocks := locks_of_some s id hinfo
  have hkeys : ∀ ino, ino ∈ (entries info.log).map Prod.fst ↔ ino ∈ info.locks := by
    intro ino
    rw [entries_map_fst, (h id).logged info ino hinfo]
    simp [Option.isSome_iff_ne_none]
  refine h.enterLoop (by simp [hinfo]) hfree rfl ?_ ?_ ?_ ?_ (entries_nodup info.log) ?_
  · simp [hpc, Pc.owned, Pc.recorded]
  · simp [hpc, Pc.recorded]
  · ext ino
    simp only [Pc.owned, Pc.recorded, List.mem_toFinset, hkeys, hlocks]
  · ext ino
    simp only [Pc.recorded, List.mem_toFinset, hkeys, hlocks]
  · intro ino hm
    rw [hlocks]
    exact (hkeys ino).mp hm

theorem inLoop_slots {pc : Pc} (h : pc.inLoop = true) (locks : Finset Slot) :
    pc.owned locks = pc.loopSlots.toFinset ∧ pc.recorded locks = pc.loopSlots.toFinset ∧ pc.op = none := by
  cases pc with
  | releasing call rest => exact ⟨rfl, rfl, rfl⟩
  | committing rest => exact ⟨rfl, rfl, rfl⟩
  | _ => cases h

-- One slot is unlocked.
theorem Locks.unlock (h : Locks s) {pc : Pc} {ino : Slot} {rest : List Slot}
    (hloop : (s.pc id).inLoop = true) (hslots : (s.pc id).loopSlots = ino :: rest)
    (hloop' : pc.inLoop = true) (hslots' : pc.loopSlots = rest) :
    Locks ((s.unlock ino).setPc id pc) := by
  have hid := h id
  obtain ⟨howned, hrecorded, -⟩ := inLoop_slots hloop (s.locks id)
  obtain ⟨howned', hrecorded', hop⟩ := inLoop_slots hloop' (s.locks id)
  have hnodup := hid.nodup
  rw [hslots, List.nodup_cons] at hnodup
  have hmine : s.lc ino = some id := by
    rw [hid.held, howned, hslots]
    simp
  have hhandler : s.lockHandlers ino = some id := by
    rw [hid.handled, hrecorded, hslots]
    simp
  refine h.move id (fun other he => setPc_pc_of_ne _ id other _ he) (fun _ _ => rfl) le_rfl
    (fun _ _ hd => hd) ?_ ?_ ?_
  · intro other slot he
    by_cases hi : slot = ino
    · subst hi
      simp [State.unlock, hmine, Ne.symm he]
    · simp [State.unlock, hi]
  · intro other slot he
    by_cases hi : slot = ino
    · subst hi
      simp [State.unlock, hhandler, Ne.symm he]
    · simp [State.unlock, hi]
  · constructor
    · exact hid.born
    · intro _
      refine hid.busy ?_
      intro hp
      simp [hp, Pc.inLoop] at hloop
    · intro _
      exact hid.turn hloop
    · simp [hop]
    · exact hid.logged
    · intro slot
      have hold := hid.held slot
      rw [howned, hslots] at hold
      rw [setPc_pc_self, setPc_locks, unlock_locks, howned', hslots']
      by_cases hi : slot = ino
      · subst hi
        simp [State.unlock, hnodup.1]
      · simpa [State.unlock, hi] using hold
    · intro slot
      have hold := hid.handled slot
      rw [hrecorded, hslots] at hold
      rw [setPc_pc_self, setPc_locks, unlock_locks, hrecorded', hslots']
      by_cases hi : slot = ino
      · subst hi
        simp [State.unlock, hnodup.1]
      · simpa [State.unlock, hi] using hold
    · simpa [hslots'] using hnodup.2
    · intro slot hm
      rw [setPc_pc_self, hslots'] at hm
      exact hid.subset slot (by simp [hslots, hm])

theorem Locks.setEc (h : Locks s) (ec : Slot → Str) : Locks { s with ec := ec } :=
  fun id => (h id).frame rfl rfl le_rfl (fun hd => hd) (fun _ => Iff.rfl) (fun _ => Iff.rfl)

theorem Locks.releaseEntry (h : Locks s) (hs : releaseEntry s id = some next) : Locks next := by
  obtain ⟨call, ino, rest, hpc, rfl⟩ := releaseEntry_cases hs
  exact h.unlock (by simp [hpc, Pc.inLoop]) (by simp [hpc, Pc.loopSlots]) rfl rfl

theorem Locks.commitEntry (h : Locks s) (hs : commitEntry s id = some next) : Locks next := by
  obtain ⟨ino, value, rest, hpc, rfl⟩ := commitEntry_cases hs
  exact (h.setEc _).unlock (by simp [hpc, Pc.inLoop]) (by simp [hpc, Pc.loopSlots]) rfl rfl

-- All slots are unlocked and the transaction is over.
theorem Locks.leaveLoop (h : Locks s) (hloop : (s.pc id).inLoop = true)
    (hslots : (s.pc id).loopSlots = []) (call : Call) (status : Status) :
    Locks (({ s with lcDependency := none }.setInfo id none).reply id call status []) := by
  have hid := h id
  obtain ⟨howned, hrecorded, -⟩ := inLoop_slots hloop (s.locks id)
  rw [hslots] at howned hrecorded
  have hlocks : (({ s with lcDependency := none }.setInfo id none).reply id call status []).locks id = ∅ := by
    simp [State.locks]
  have hturn := hid.turn hloop
  refine h.move id ?_ ?_ le_rfl ?_ (fun _ _ _ => Iff.rfl) (fun _ _ _ => Iff.rfl) ?_
  · intro other he
    rw [reply_pc_of_ne _ _ _ _ _ _ he]
    rfl
  · intro other he
    rw [reply_infos, setInfo_infos_of_ne _ _ _ _ he]
  · intro other he hd
    rw [hturn] at hd
    exact absurd (Option.some.inj hd).symm he
  · constructor
    · simp
    · simp
    · simp [Pc.inLoop]
    · simp [Pc.op]
    · simp
    · intro ino
      have hold := hid.held ino
      rw [howned] at hold
      rw [hlocks, reply_pc_self]
      exact hold
    · intro ino
      have hold := hid.handled ino
      rw [hrecorded] at hold
      rw [hlocks, reply_pc_self]
      exact hold
    · simp [Pc.loopSlots]
    · simp [Pc.loopSlots]

theorem Locks.releaseEnd (h : Locks s) (hs : releaseEnd s id = some next) : Locks next := by
  obtain ⟨call, hpc, rfl⟩ := releaseEnd_cases hs
  exact h.leaveLoop (by simp [hpc, Pc.inLoop]) (by simp [hpc, Pc.loopSlots]) _ _

theorem Locks.commitEnd (h : Locks s) (hs : commitEnd s id = some next) : Locks next := by
  obtain ⟨hpc, rfl⟩ := commitEnd_cases hs
  have hcleared : Locks (s.clearDependency id) := h.setDependency _
  have hpc' : (s.clearDependency id).pc id = .committing [] := hpc
  exact hcleared.leaveLoop (by simp [hpc', Pc.inLoop]) (by simp [hpc', Pc.loopSlots]) _ _

theorem Locks.step (h : Locks s) {event : Event} (hs : Step s event next) : Locks next := by
  unfold Step TwoPhase.step at hs
  cases event with
  | begin => exact h.begin hs
  | call id call => exact h.receive hs
  | checkCycle id => exact h.runCheckCycle hs
  | acquire id => exact h.acquire hs
  | record id => exact h.record hs
  | releaseStart id => exact h.releaseStart hs
  | releaseEntry id => exact h.releaseEntry hs
  | releaseEnd id => exact h.releaseEnd hs
  | commitStart id => exact h.commitStart hs
  | commitEntry id => exact h.commitEntry hs
  | commitEnd id => exact h.commitEnd hs

end CseLabs.TwoPhase
