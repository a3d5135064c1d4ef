import CseLabs.Requests
import CseLabs.Occ.Serializable
import CseLabs.Ydb.Views

namespace CseLabs.Occ

open Ydb Serial

def event : Request → Event
  | .begin => .begin
  | .call id call => .call id call

-- The events of the handler of a request, and its end.
def serves : Event → Event → Prop
  | .call id _, .commitStart id' | .call id _, .validate id' | .call id _, .put id' => id' = id
  | _, _ => False

def ended : Event → State → Prop
  | .call id _, s => s.pc id = .idle
  | _, _ => True

-- The requests are handled one after another.
def Serial (s : State) (requests : List Request) (next : State) : Prop :=
  Handles step serves ended s (requests.map event) next

-- The event that a handler thread waits to make.
def Pc.next (id : Tid) : Pc → Option Event
  | .idle => none
  | .preparing => some (.commitStart id)
  | .validating _ => some (.validate id)
  | .writing _ => some (.put id)

variable {s next : State} {id : Tid} {info : Transaction}

theorem next_of_step {event : Event} {call : Call} (hserves : serves (.call id call) event)
    (hs : step s event = some next) : (s.pc id).next id = some event := by
  cases event with
  | begin => cases hserves
  | call => cases hserves
  | commitStart id' =>
      obtain rfl : id' = id := hserves
      simp only [step, commitStart] at hs
      cases hpc : s.pc id' <;> simp only [hpc] at hs
      · cases hs
      · rfl
      · cases hs
      · cases hs
  | validate id' =>
      obtain rfl : id' = id := hserves
      simp only [step, validate] at hs
      cases hpc : s.pc id' <;> simp only [hpc] at hs
      · cases hs
      · cases hs
      · rfl
      · cases hs
  | put id' =>
      obtain rfl : id' = id := hserves
      simp only [step, put] at hs
      cases hpc : s.pc id' <;> simp only [hpc] at hs
      · cases hs
      · cases hs
      · cases hs
      · rfl

theorem sequential (request : Event) : Sequential step (serves request) (ended request) := by
  intro s left right hopen hleft hright hsleft hsright
  obtain ⟨nextLeft, hl⟩ := Option.isSome_iff_exists.mp hsleft
  obtain ⟨nextRight, hr⟩ := Option.isSome_iff_exists.mp hsright
  cases request with
  | call id call =>
      exact Option.some.inj ((next_of_step hleft hl).symm.trans (next_of_step hright hr))
  | _ => exact absurd trivial hopen

-- A serial execution has one outcome.
theorem Serial.unique {left right : State} {requests : List Request} (hleft : Serial s requests left)
    (hright : Serial s requests right) : left = right :=
  Handles.unique sequential hleft hright

theorem Serial.append {mid : State} {first second : List Request} (hfirst : Serial s first mid)
    (hsecond : Serial mid second next) : Serial s (first ++ second) next := by
  unfold Serial at *
  rw [List.map_append]
  exact hfirst.append hsecond

-- No call is under way.
structure Calm (s : State) : Prop where
  idle : ∀ id, s.pc id = .idle
  free : s.lcWriteset = none

-- What a call leaves behind: what becomes of its transaction, the store, and the answer OK.
structure Answered (id : Tid) (call : Call) (value : Str) (info : Option Transaction) (ec : Slot → Str)
    (s next : State) : Prop where
  infos : next.transactionInfos = Function.update s.transactionInfos id info
  ec : next.ec = ec
  transId : next.transId = s.transId
  replies : next.replies = s.replies ++ [⟨id, call, .OK, value⟩]
  calm : (∀ other, other ≠ id → s.pc other = .idle) → Calm next

-- The handler of a call of `id` runs from `s` to its end in `next`.
def Runs (id : Tid) (call : Call) (s next : State) : Prop :=
  Settles step (serves (.call id call)) (ended (.call id call)) s next

theorem Calm.reply {mid : State} (hpc : mid.pc = s.pc) (hfree : mid.lcWriteset = none)
    (hothers : ∀ other, other ≠ id → s.pc other = .idle) (call : Call) (status : Status) (value : Str) :
    Calm (mid.reply id call status value) where
  idle other := by
    by_cases he : other = id
    · rw [he, reply_pc_self]
    · rw [reply_pc_of_ne _ _ _ _ _ _ he, hpc, hothers other he]
  free := hfree

section Calls

variable {call : Call} {value : Str} {info' : Option Transaction} {ec : Slot → Str} {mid : State}

-- A step of the handler before the answer.
theorem runs_more {event : Event} (hstep : step s event = some mid)
    (hserves : serves (.call id call) event) (hbusy : s.pc id ≠ .idle)
    (hinfos : mid.transactionInfos = s.transactionInfos) (htid : mid.transId = s.transId)
    (hreplies : mid.replies = s.replies) (hpc : ∀ other, other ≠ id → mid.pc other = s.pc other)
    (h : ∃ next, Runs id call mid next ∧ Answered id call value info' ec mid next) :
    ∃ next, Runs id call s next ∧ Answered id call value info' ec s next := by
  obtain ⟨next, hruns, hanswer⟩ := h
  refine ⟨next, .more hbusy hserves hstep hruns, ?_, hanswer.ec, ?_, ?_, ?_⟩
  · rw [hanswer.infos, hinfos]
  · rw [hanswer.transId, htid]
  · rw [hanswer.replies, hreplies]
  · intro hothers
    exact hanswer.calm fun other hne => (hpc other hne).trans (hothers other hne)

-- The loop over write_log.
theorem runs_writing {rest : List (Slot × Str)} (hpc : s.pc id = .writing rest) :
    ∃ next, Runs id .commit s next ∧
      Answered id .commit [] none (writeBack rest s.ec) s next := by
  induction rest generalizing s with
  | nil =>
      have hend : step s (.put id) =
          some (({ s with lcWriteset := none }.setInfo id none).reply id .commit .OK []) := by
        simp only [step, put, hpc]
      have hmine : serves (.call id .commit) (.put id) := rfl
      refine ⟨_, .more (by simp [ended, hpc]) hmine hend (.done (reply_pc_self ..)), rfl, rfl, rfl, rfl, ?_⟩
      intro hothers
      apply Calm.reply
      · rfl
      · rfl
      · exact hothers
  | cons entry rest ih =>
      have hentry : step s (.put id) = some ({ s with
          ec := Function.update s.ec entry.1 entry.2 }.setPc id (.writing rest)) := by
        simp only [step, put, hpc]
      exact runs_more hentry rfl (by simp [hpc]) rfl rfl rfl (fun _ hne => setPc_pc_of_ne _ _ _ _ hne)
        (ih (setPc_pc_self ..))

-- The loop over read_log, in which every value is still in the store.
theorem runs_validating {rest : List (Slot × Str)} (hpc : s.pc id = .validating rest)
    (hinfo : s.transactionInfos id = some info) (hvalid : ∀ entry ∈ rest, s.ec entry.1 = entry.2) :
    ∃ next, Runs id .commit s next ∧
      Answered id .commit [] none (overlay info.writeLog s.ec) s next := by
  induction rest generalizing s with
  | nil =>
      have hend : step s (.validate id) = some (s.setPc id (.writing (entries info.writeLog))) := by
        simp [step, validate, hpc, hinfo]
      rw [← writeBack_entries]
      exact runs_more hend rfl (by simp [hpc]) rfl rfl rfl (fun _ hne => setPc_pc_of_ne _ _ _ _ hne)
        (runs_writing (setPc_pc_self ..))
  | cons entry rest ih =>
      have hentry : step s (.validate id) = some (s.setPc id (.validating rest)) := by
        simp [step, validate, hpc, hvalid entry]
      exact runs_more hentry rfl (by simp [hpc]) rfl rfl rfl (fun _ hne => setPc_pc_of_ne _ _ _ _ hne)
        (ih (setPc_pc_self ..) hinfo fun other hother => hvalid other (List.mem_cons_of_mem _ hother))

theorem Calm.commit (h : Calm s) (hinfo : s.transactionInfos id = some info)
    (hreads : Agrees info.readLog s.ec) :
    ∃ next, Serial s [.call id .commit] next ∧
      Answered id .commit [] none (overlay info.writeLog s.ec) s next := by
  have hcall : step s (.call id .commit) = some (s.setPc id .preparing) := by
    simp [step, receive, h.idle, hinfo]
  have hstart : step (s.setPc id .preparing) (.commitStart id) =
      some ({ s.setPc id .preparing with lcWriteset := some id }.setPc id
        (.validating (entries info.readLog))) := by
    simp [step, commitStart, State.setPc, hinfo, h.free]
  have hvalid : ∀ entry ∈ entries info.readLog, s.ec entry.1 = entry.2 := by
    rintro ⟨ino, value⟩ hentry
    exact hreads ino value (mem_entries.mp hentry)
  have hothers : ∀ pc other, other ≠ id → (s.setPc id pc).pc other = s.pc other :=
    fun pc other hne => setPc_pc_of_ne s id other pc hne
  obtain ⟨next, hruns, hanswer⟩ := runs_more hstart rfl (by simp) rfl rfl rfl
    (fun other hne => setPc_pc_of_ne _ _ _ _ hne)
    (runs_validating (setPc_pc_self ..) hinfo hvalid)
  exact ⟨next, .single hcall hruns, hanswer.infos, hanswer.ec, hanswer.transId, hanswer.replies,
    fun hidle => hanswer.calm fun other hne => (hothers _ other hne).trans (hidle other hne)⟩

-- The calls that are answered at once.
theorem Calm.single (h : Calm s) (hstep : step s (.call id call) = some (mid.reply id call .OK value))
    (hinfos : mid.transactionInfos = Function.update s.transactionInfos id info') (hec : mid.ec = s.ec)
    (htid : mid.transId = s.transId) (hreplies : mid.replies = s.replies) (hpc : mid.pc = s.pc)
    (hfree : mid.lcWriteset = s.lcWriteset) :
    ∃ next, Serial s [.call id call] next ∧ Answered id call value info' s.ec s next := by
  refine ⟨_, .single hstep (.done (reply_pc_self ..)), hinfos, hec, htid, ?_, ?_⟩
  · rw [← hreplies]
    rfl
  · intro hothers
    exact .reply hpc (hfree.trans h.free) hothers _ _ _

theorem Calm.abort (h : Calm s) (hinfo : s.transactionInfos id = some info) :
    ∃ next, Serial s [.call id .abort] next ∧ Answered id .abort [] none s.ec s next := by
  have hcall : step s (.call id .abort) = some ((s.setInfo id none).reply id .abort .OK []) := by
    simp [step, receive, h.idle, hinfo]
  exact h.single hcall rfl rfl rfl rfl rfl rfl

end Calls

-- The value that a write leaves in write_log and in the store.
def written : Write → Str
  | .set value => value
  | .del => []

def stored : Option Write → Str
  | none => []
  | some write => written write

-- What get returns when the transaction and the committed ones have last done this to the slot.
def read (own last : Option Write) : Str :=
  match own with
  | some write => written write
  | none => stored last

structure Logs (own : Writes) (ec : Slot → Str) (info : Transaction) : Prop where
  writes : info.writeLog = fun ino => (own ino).map written
  reads : Agrees info.readLog ec

section Logs

variable {own last : Writes} {ec : Slot → Str}

theorem Logs.write (h : Logs own ec info) (ino : Slot) (write : Write) :
    Logs (Function.update own ino (some write)) ec
      { info with writeLog := Function.update info.writeLog ino (some (written write)) } where
  writes := by
    funext other
    by_cases he : other = ino
    · subst he
      simp
    · simp [he, h.writes]
  reads := h.reads

theorem Logs.read (h : Logs own ec info) (ino : Slot) :
    Logs own ec { info with readLog := Function.update info.readLog ino (some (ec ino)) } where
  writes := h.writes
  reads := by
    intro other value hlog
    by_cases he : other = ino
    · subst he
      simpa using hlog
    · exact h.reads other value ((Function.update_of_ne he _ _).symm.trans hlog)

theorem Logs.committed (h : Logs own ec info) (hec : ec = fun ino => stored (last ino)) :
    overlay info.writeLog ec = fun ino => stored ((own ino).or (last ino)) := by
  funext ino
  simp only [overlay, h.writes, hec]
  cases own ino <;> rfl

theorem get_eq (h : Logs own s.ec info) (hec : s.ec = fun ino => stored (last ino)) (key : Str)
    (hinfo : s.transactionInfos id = some info) :
    ∃ info', get s id info key = (s.setInfo id (some info')).reply id (.get key) .OK
        (Occ.read (own (Ydb.hash key)) (last (Ydb.hash key))) ∧ Logs own s.ec info' := by
  have hsame : s.setInfo id (some info) = s := setInfo_self hinfo
  unfold get hashOcc
  simp only [h.writes]
  cases hown : own (Ydb.hash key) with
  | some write => exact ⟨info, by rw [hsame]; rfl, h⟩
  | none =>
      have hstored : s.ec (Ydb.hash key) = Occ.read none (last (Ydb.hash key)) := by rw [hec]; rfl
      simp only [Option.map_none]
      cases hread : info.readLog (Ydb.hash key) with
      | some old =>
          have hagree : s.ec (Ydb.hash key) = old := h.reads _ old hread
          simp only [hagree, if_true]
          exact ⟨info, by rw [hsame, ← hstored, hagree], h⟩
      | none => exact ⟨_, by rw [← hstored, ← h.writes], h.read (Ydb.hash key)⟩

-- get, set and del are answered at once.
theorem step_op (h : Calm s) (hinfo : s.transactionInfos id = some info)
    (hec : s.ec = fun ino => stored (last ino)) (hlogs : Logs own s.ec info) (op : TwoPhase.Op) :
    ∃ info', step s (.call id op.call) = some ((s.setInfo id (some info')).reply id op.call .OK
        (View.reply Occ.read ⟨id, op.call, own op.ino, last op.ino⟩).value) ∧
      Logs (own.note op) s.ec info' := by
  cases op with
  | get key =>
      obtain ⟨info', hget, hlogs'⟩ := get_eq hlogs hec key hinfo
      refine ⟨info', ?_, hlogs'⟩
      simp only [step, TwoPhase.Op.call, receive, h.idle, hinfo, hget]
      rfl
  | set key value =>
      refine ⟨_, ?_, hlogs.write (Ydb.hash key) (.set value)⟩
      simp only [step, TwoPhase.Op.call, receive, h.idle, hinfo]
      rfl
  | del key =>
      refine ⟨_, ?_, hlogs.write (Ydb.hash key) .del⟩
      simp only [step, TwoPhase.Op.call, receive, h.idle, hinfo]
      rfl

end Logs

-- The server as one that runs serial histories.
def serialServer : SerialServer State where
  handles := Serial
  transId := State.transId
  replies := State.replies
  read := read
  closed last s := Calm s ∧ s.ec = fun ino => stored (last ino)
  opened id own last s := Calm s ∧ (s.ec = fun ino => stored (last ino)) ∧
    ∃ info, s.transactionInfos id = some info ∧ Logs own s.ec info
  nil := Handles.nil
  append := Serial.append
  begin := by
    rintro s last ⟨hcalm, hec⟩ htid
    have hstep : step s .begin = some { s.setInfo s.transId (some {}) with transId := s.transId + 1 } := by
      simp only [step, transactionBegin, if_pos htid]
    have hlogs : Logs (fun _ => none) s.ec {} := ⟨rfl, fun _ _ hlog => (nomatch hlog)⟩
    exact ⟨_, .single hstep (.done trivial), ⟨⟨hcalm.idle, hcalm.free⟩, hec, {},
      setInfo_infos_self s _ _, hlogs⟩, rfl, rfl⟩
  access := by
    rintro s id own last ⟨hcalm, hec, info, hinfo, hlogs⟩ op
    obtain ⟨info', hstep, hlogs'⟩ := step_op hcalm hinfo hec hlogs op
    obtain ⟨next, hserial, hanswer⟩ := hcalm.single hstep rfl rfl rfl rfl rfl rfl
    refine ⟨next, hserial, ⟨hanswer.calm fun other _ => hcalm.idle other, hanswer.ec.trans hec, info', ?_, ?_⟩,
      hanswer.transId, hanswer.replies⟩
    · rw [hanswer.infos, Function.update_self]
    · rw [hanswer.ec]
      exact hlogs'
  commit := by
    rintro s id own last ⟨hcalm, hec, info, hinfo, hlogs⟩
    obtain ⟨next, hserial, hanswer⟩ := hcalm.commit hinfo hlogs.reads
    exact ⟨next, hserial, ⟨hanswer.calm fun other _ => hcalm.idle other,
      hanswer.ec.trans (hlogs.committed hec)⟩, hanswer.transId, hanswer.replies⟩
  abort := by
    rintro s id own last ⟨hcalm, hec, info, hinfo, hlogs⟩
    obtain ⟨next, hserial, hanswer⟩ := hcalm.abort hinfo
    exact ⟨next, hserial, ⟨hanswer.calm fun other _ => hcalm.idle other, hanswer.ec.trans hec⟩,
      hanswer.transId, hanswer.replies⟩

end CseLabs.Occ
