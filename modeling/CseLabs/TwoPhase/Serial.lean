import CseLabs.Requests
import CseLabs.TwoPhase.Clients
import CseLabs.Ydb.Views

namespace CseLabs.TwoPhase

open Ydb Serial

def event : Request → Event
  | .begin => .begin
  | .call id call => .call id call

-- The events of the handler of a request, and its end.
def serves : Event → Event → Prop
  | .call id call, event => event.serves id call = true
  | _, _ => False

def ended : Event → State → Prop
  | .call id _, s => s.pc id = .idle
  | _, _ => True

-- The requests are handled one after another.
def Serial (s : State) (requests : List Request) (next : State) : Prop :=
  Handles step serves ended s (requests.map event) next

-- The event that a handler thread waits to make.
def Pc.next (id : Tid) : Pc → Option Event
  | .idle => none
  | .checking _ => some (.checkCycle id)
  | .acquiring _ => some (.acquire id)
  | .granted _ => some (.record id)
  | .aborting _ => some (.releaseStart id)
  | .releasing _ (_ :: _) => some (.releaseEntry id)
  | .releasing _ [] => some (.releaseEnd id)
  | .preparing => some (.commitStart id)
  | .committing (_ :: _) => some (.commitEntry id)
  | .committing [] => some (.commitEnd id)

variable {s next : State} {id : Tid} {info : Transaction}

theorem next_of_step {event : Event} {call : Call} (hserves : event.serves id call = true)
    (hpc : s.pc id ≠ .idle) (hs : step s event = some next) : (s.pc id).next id = some event := by
  cases event <;> simp only [Event.serves, decide_eq_true_eq, Bool.false_eq_true] at hserves
  case call id' call' =>
    obtain ⟨rfl, rfl⟩ := hserves
    simp [step, receive, hpc] at hs
  all_goals subst hserves
  case checkCycle =>
    obtain ⟨op, -, -, hop, -⟩ := runCheckCycle_cases hs
    rw [hop]
    rfl
  case record =>
    obtain ⟨op, -, hop, -⟩ := record_cases hs
    rw [hop]
    rfl
  all_goals
    simp only [step, acquire, releaseStart, releaseEntry, releaseEnd, commitStart, commitEntry,
      commitEnd] at hs
    split at hs
    · rename_i hop
      rw [hop]
      rfl
    · cases hs

theorem sequential (request : Event) : Sequential step (serves request) (ended request) := by
  intro s left right hopen hleft hright hsleft hsright
  obtain ⟨nextLeft, hl⟩ := Option.isSome_iff_exists.mp hsleft
  obtain ⟨nextRight, hr⟩ := Option.isSome_iff_exists.mp hsright
  cases request with
  | call id call =>
      have hsame := (next_of_step hleft hopen hl).symm.trans (next_of_step hright hopen hr)
      exact Option.some.inj hsame
  | _ => exact absurd trivial hopen

-- A serial execution has one outcome.
theorem Serial.unique {left right : State} {requests : List Request} (hleft : Serial s requests left)
    (hright : Serial s requests right) : left = right :=
  Handles.unique sequential hleft hright

theorem Books.settles {serves : Event → Prop} {ended : State → Prop} (h : Books s)
    (hs : Settles TwoPhase.step serves ended s next) : Books next := by
  induction hs with
  | done => exact h
  | more _ _ hstep _ ih => exact ih (h.step hstep)

-- One transaction is open and none of its calls is under way.
structure Alone (s : State) (id : Tid) (info : Transaction) : Prop where
  books : Books s
  info : s.transactionInfos id = some info
  others : ∀ other, other ≠ id → s.transactionInfos other = none
  idle : s.pc id = .idle

-- No transaction is open.
structure Closed (s : State) : Prop where
  books : Books s
  infos : ∀ id, s.transactionInfos id = none

namespace Alone

theorem eq_of_live (h : Alone s id info) {other : Tid} (hlive : s.transactionInfos other ≠ none) :
    other = id := by
  by_contra hne
  exact hlive (h.others other hne)

theorem free (h : Alone s id info) : s.lcDependency = none := by
  by_contra hd
  obtain ⟨other, hother⟩ := Option.ne_none_iff_exists'.mp hd
  have hloop := h.books.edges.turn other hother
  have hbusy : s.pc other ≠ .idle := by
    intro hp
    rw [hp] at hloop
    cases hloop
  have hsame := h.eq_of_live ((h.books.locks other).busy hbusy)
  exact hbusy (hsame ▸ h.idle)

theorem lockHandlers (h : Alone s id info) {ino : Slot} (hino : ino ∉ info.locks) :
    s.lockHandlers ino = none := by
  by_contra hd
  obtain ⟨other, hother⟩ := Option.ne_none_iff_exists'.mp hd
  obtain rfl := h.eq_of_live (h.books.locks.live_of_handler hother)
  have hmem := ((h.books.locks other).handled ino).mp hother
  rw [h.idle, locks_of_some s other h.info] at hmem
  exact hino hmem

theorem lc (h : Alone s id info) {ino : Slot} (hino : ino ∉ info.locks) : s.lc ino = none := by
  by_contra hd
  obtain ⟨other, hother⟩ := Option.ne_none_iff_exists'.mp hd
  have hmem := ((h.books.locks other).held ino).mp hother
  by_cases hsame : other = id
  · subst hsame
    rw [h.idle, locks_of_some s other h.info] at hmem
    exact hino hmem
  · have hnone := h.others other hsame
    have hidle : s.pc other = .idle := by
      by_contra hp
      exact (h.books.locks other).busy hp hnone
    simp [hidle, Pc.owned, Pc.recorded, locks_of_none s other hnone] at hmem

end Alone

-- The transaction after get, set or del of a slot that reads as `read`.
def Transaction.after (info : Transaction) (op : Op) (read : Str) : Transaction where
  locks := insert op.ino info.locks
  log := Function.update info.log op.ino (some (op.logged ((info.log op.ino).getD read)))

-- The handler of a call of `id` runs from `s` to its end in `next`.
def Runs (id : Tid) (call : Call) (s next : State) : Prop :=
  Settles step (serves (.call id call)) (ended (.call id call)) s next

-- What a call leaves behind: what becomes of its transaction, the store, and the answer OK.
structure Answered (id : Tid) (call : Call) (value : Str) (info : Option Transaction) (ec : Slot → Str)
    (s next : State) : Prop where
  infos : next.transactionInfos = Function.update s.transactionInfos id info
  ec : next.ec = ec
  transId : next.transId = s.transId
  replies : next.replies = s.replies ++ [⟨id, call, .OK, value⟩]

section Calls

variable {call : Call} {value : Str} {info' : Option Transaction} {ec : Slot → Str} {mid : State}

-- A step of the handler before the answer.
theorem runs_more {event : Event} (hstep : step s event = some mid)
    (hserves : event.serves id call = true) (hbusy : s.pc id ≠ .idle)
    (hinfos : mid.transactionInfos = s.transactionInfos) (htid : mid.transId = s.transId)
    (hreplies : mid.replies = s.replies)
    (h : ∃ next, Runs id call mid next ∧ Answered id call value info' ec mid next) :
    ∃ next, Runs id call s next ∧ Answered id call value info' ec s next := by
  obtain ⟨next, hruns, hanswer⟩ := h
  refine ⟨next, .more hbusy hserves hstep hruns, ?_, hanswer.ec, ?_, ?_⟩
  · rw [hanswer.infos, hinfos]
  · rw [hanswer.transId, htid]
  · rw [hanswer.replies, hreplies]

-- The step that answers.
theorem runs_last {event : Event} (hstep : step s event = some next)
    (hserves : event.serves id call = true) (hbusy : s.pc id ≠ .idle) (hidle : next.pc id = .idle)
    (h : Answered id call value info' ec s next) :
    ∃ next, Runs id call s next ∧ Answered id call value info' ec s next :=
  ⟨next, .more hbusy hserves hstep (.done hidle), h⟩

theorem receive_op (hidle : s.pc id = .idle) (hinfo : s.transactionInfos id = some info) (op : Op) :
    receive s id op.call = access s id info op := by
  cases op <;> simp [receive, hidle, hinfo, Op.call]

-- A slot that the transaction has locked before.
theorem Alone.locked (h : Alone s id info) {op : Op} (hmem : op.ino ∈ info.locks) :
    ∃ next, step s (.call id op.call) = some next ∧ next.pc id = .idle ∧
      Answered id op.call (op.out ((info.log op.ino).getD (s.ec op.ino)))
        (some (info.after op (s.ec op.ino))) s.ec s next := by
  obtain ⟨old, hold⟩ :=
    Option.ne_none_iff_exists'.mp (((h.books.locks id).logged info op.ino h.info).mp hmem)
  have hstep : step s (.call id op.call) = TwoPhase.locked s id info op := by
    simp only [step, receive_op h.idle h.info, TwoPhase.access, if_pos hmem]
  have hlocks : insert op.ino info.locks = info.locks := Finset.insert_eq_self.mpr hmem
  rw [hstep]
  unfold TwoPhase.locked
  rw [hold]
  cases op with
  | get key =>
      refine ⟨_, rfl, reply_pc_self .., ?_, rfl, rfl, rfl⟩
      -- the value read before is put in its place again
      have hlog : Function.update info.log (Op.get key).ino (some old) = info.log := by
        rw [← hold, Function.update_eq_self]
      have hafter : info.after (.get key) (s.ec (Op.get key).ino) = info := by
        simp only [Transaction.after, hlocks, hold, Option.getD_some, Op.logged, hlog]
      rw [hafter, ← h.info, Function.update_eq_self]
      rfl
  | set key value =>
      refine ⟨_, rfl, reply_pc_self .., ?_, rfl, rfl, rfl⟩
      simp only [Transaction.after, hlocks, Op.logged]
      rfl
  | del key =>
      refine ⟨_, rfl, reply_pc_self .., ?_, rfl, rfl, rfl⟩
      simp only [Transaction.after, hlocks, Op.logged]
      rfl

theorem runs_granted {op : Op} (hpc : s.pc id = .granted op) (hinfo : s.transactionInfos id = some info)
    (hnone : info.log op.ino = none) :
    ∃ next, Runs id op.call s next ∧
      Answered id op.call (op.out (s.ec op.ino)) (some (info.after op (s.ec op.ino))) s.ec s next := by
  have hrecord : step s (.record id) = some (({ s with
      lockHandlers := Function.update s.lockHandlers op.ino (some id) }.setInfo
      id (some (info.after op (s.ec op.ino)))).reply id op.call .OK (op.out (s.ec op.ino))) := by
    simp only [step, record, hpc, hinfo, Option.bind_eq_bind, Option.bind_some, Transaction.after, hnone,
      Option.getD_none]
    cases op <;> rfl
  exact runs_last hrecord (decide_eq_true rfl) (by simp [hpc]) (reply_pc_self ..) ⟨rfl, rfl, rfl, rfl⟩

theorem runs_acquiring {op : Op} (hpc : s.pc id = .acquiring op) (hlc : s.lc op.ino = none)
    (hinfo : s.transactionInfos id = some info) (hnone : info.log op.ino = none) :
    ∃ next, Runs id op.call s next ∧
      Answered id op.call (op.out (s.ec op.ino)) (some (info.after op (s.ec op.ino))) s.ec s next := by
  have hacquire : step s (.acquire id) =
      some ({ s with lc := Function.update s.lc op.ino (some id) }.setPc id (.granted op)) := by
    simp [step, acquire, hpc, hlc]
  exact runs_more hacquire (decide_eq_true rfl) (by simp [hpc]) rfl rfl rfl
    (runs_granted (setPc_pc_self ..) hinfo hnone)

-- A slot that is free: checkCycle finds no holder, the lock is granted and entered in the books.
theorem Alone.fresh (h : Alone s id info) {op : Op} (hnot : op.ino ∉ info.locks) :
    ∃ mid next, step s (.call id op.call) = some mid ∧ Runs id op.call mid next ∧
      Answered id op.call (op.out ((info.log op.ino).getD (s.ec op.ino)))
        (some (info.after op (s.ec op.ino))) s.ec s next := by
  have hnone : info.log op.ino = none := by
    by_contra hlog
    exact hnot (((h.books.locks id).logged info op.ino h.info).mpr hlog)
  have hcall : step s (.call id op.call) = some (s.setPc id (.checking op)) := by
    simp only [step, receive_op h.idle h.info, TwoPhase.access, if_neg hnot]
  have hcheck : step (s.setPc id (.checking op)) (.checkCycle id) =
      some ((s.setPc id (.checking op)).setPc id (.acquiring op)) := by
    simp [step, runCheckCycle, checkCycle, h.free, h.lockHandlers hnot]
  obtain ⟨next, hruns, hanswer⟩ := runs_more hcheck (decide_eq_true rfl) (by simp) rfl rfl rfl
    (runs_acquiring (setPc_pc_self ..) (h.lc hnot) h.info hnone)
  rw [hnone]
  exact ⟨_, next, hcall, hruns, hanswer.infos, hanswer.ec, hanswer.transId, hanswer.replies⟩

theorem Alone.continue (h : Alone s id info) {info' : Transaction} (hbooks : Books next)
    (hidle : next.pc id = .idle) (hanswer : Answered id call value (some info') ec s next) :
    Alone next id info' where
  books := hbooks
  info := by rw [hanswer.infos, Function.update_self]
  others other hne := by rw [hanswer.infos, Function.update_of_ne hne, h.others other hne]
  idle := hidle

theorem Alone.access (h : Alone s id info) (op : Op) :
    ∃ next, Serial s [.call id op.call] next ∧ Alone next id (info.after op (s.ec op.ino)) ∧
      Answered id op.call (op.out ((info.log op.ino).getD (s.ec op.ino)))
        (some (info.after op (s.ec op.ino))) s.ec s next := by
  by_cases hmem : op.ino ∈ info.locks
  · obtain ⟨next, hstep, hidle, hanswer⟩ := h.locked hmem
    exact ⟨next, .single hstep (.done hidle), h.continue (h.books.step hstep) hidle hanswer, hanswer⟩
  · obtain ⟨mid, next, hstep, hruns, hanswer⟩ := h.fresh hmem
    exact ⟨next, .single hstep hruns,
      h.continue ((h.books.step hstep).settles hruns) hruns.ends hanswer, hanswer⟩

-- What commit puts into the store for a value of the log.
def written (value : Str) : Str := if value = REMOVESTRING then [] else value

-- The loop of transaction_commit.
theorem runs_committing {rest : List (Slot × Str)} (hpc : s.pc id = .committing rest) :
    ∃ next, Runs id .commit s next ∧
      Answered id .commit [] none (writeBack (rest.map fun entry => (entry.1, written entry.2)) s.ec)
        s next := by
  induction rest generalizing s with
  | nil =>
      have hend : step s (.commitEnd id) = some (({ s.clearDependency id with
          lcDependency := none }.setInfo id none).reply id .commit .OK []) := by
        simp only [step, commitEnd, hpc]
      exact runs_last hend (decide_eq_true rfl) (by simp [hpc]) (reply_pc_self ..) ⟨rfl, rfl, rfl, rfl⟩
  | cons entry rest ih =>
      obtain ⟨ino, value⟩ := entry
      have hentry : step s (.commitEntry id) = some (({ s with
          ec := Function.update s.ec ino (written value) }.unlock ino).setPc id (.committing rest)) := by
        simp only [step, commitEntry, hpc]
        rfl
      exact runs_more hentry (decide_eq_true rfl) (by simp [hpc]) rfl rfl rfl (ih (setPc_pc_self ..))

-- The store after the commit of a transaction.
def committed (log : Slot → Option Str) (ec : Slot → Str) : Slot → Str :=
  overlay (fun ino => (log ino).map written) ec

theorem entries_map_written (log : Slot → Option Str) :
    (entries log).map (fun entry => (entry.1, written entry.2)) =
      entries fun ino => (log ino).map written := by
  simp only [entries, List.map_filterMap, Option.map_map]
  rfl

-- The loop of release_locks.
theorem runs_releasing {rest : List Slot} (hpc : s.pc id = .releasing .abort rest) :
    ∃ next, Runs id .abort s next ∧ Answered id .abort [] none s.ec s next := by
  induction rest generalizing s with
  | nil =>
      have hend : step s (.releaseEnd id) =
          some (({ s with lcDependency := none }.setInfo id none).reply id .abort .OK []) := by
        simp only [step, releaseEnd, hpc]
        rfl
      exact runs_last hend (decide_eq_true rfl) (by simp [hpc]) (reply_pc_self ..) ⟨rfl, rfl, rfl, rfl⟩
  | cons ino rest ih =>
      have hentry : step s (.releaseEntry id) =
          some ((s.unlock ino).setPc id (.releasing .abort rest)) := by
        simp only [step, releaseEntry, hpc]
      exact runs_more hentry (decide_eq_true rfl) (by simp [hpc]) rfl rfl rfl (ih (setPc_pc_self ..))

theorem Alone.finish (h : Alone s id info) (hbooks : Books next)
    (hanswer : Answered id call value none ec s next) : Closed next where
  books := hbooks
  infos other := by
    rw [hanswer.infos]
    by_cases hne : other = id
    · rw [hne, Function.update_self]
    · rw [Function.update_of_ne hne, h.others other hne]

theorem Alone.commit (h : Alone s id info) :
    ∃ next, Serial s [.call id .commit] next ∧ Closed next ∧
      Answered id .commit [] none (committed info.log s.ec) s next := by
  have hcall : step s (.call id .commit) = some (s.setPc id .preparing) := by
    simp [step, receive, h.idle, h.info]
  have hstart : step (s.setPc id .preparing) (.commitStart id) =
      some ({ s.setPc id .preparing with lcDependency := some id }.setPc id
        (.committing (entries info.log))) := by
    simp [step, commitStart, h.info, h.free]
  obtain ⟨next, hruns, hanswer⟩ := runs_more hstart (decide_eq_true rfl) (by simp) rfl rfl rfl
    (runs_committing (setPc_pc_self ..))
  have hec : next.ec = committed info.log s.ec := by
    rw [hanswer.ec, entries_map_written, writeBack_entries]
    rfl
  have hanswer' : Answered id .commit [] none (committed info.log s.ec) s next :=
    ⟨hanswer.infos, hec, hanswer.transId, hanswer.replies⟩
  exact ⟨next, .single hcall hruns, h.finish ((h.books.step hcall).settles hruns) hanswer', hanswer'⟩

theorem Alone.abort (h : Alone s id info) :
    ∃ next, Serial s [.call id .abort] next ∧ Closed next ∧ Answered id .abort [] none s.ec s next := by
  have hcall : step s (.call id .abort) = some (s.setPc id (.aborting .abort)) := by
    simp [step, receive, h.idle, h.info]
  have hstart : step (s.setPc id (.aborting .abort)) (.releaseStart id) =
      some ({ (s.setPc id (.aborting .abort)).clearDependency id with lcDependency := some id }.setPc id
        (.releasing .abort info.lockList)) := by
    simp [step, releaseStart, h.info, h.free]
  obtain ⟨next, hruns, hanswer⟩ := runs_more hstart (decide_eq_true rfl) (by simp) rfl rfl rfl
    (runs_releasing (setPc_pc_self ..))
  have hanswer' : Answered id .abort [] none s.ec s next :=
    ⟨hanswer.infos, hanswer.ec, hanswer.transId, hanswer.replies⟩
  exact ⟨next, .single hcall hruns, h.finish ((h.books.step hcall).settles hruns) hanswer', hanswer'⟩

-- A new transaction is the only one.
theorem Closed.begin (h : Closed s) (htid : s.transId + 1 < 2 ^ 31) :
    ∃ next, Serial s [.begin] next ∧ Alone next s.transId {} ∧ next.ec = s.ec ∧
      next.transId = s.transId + 1 ∧ next.replies = s.replies := by
  have hstep : step s .begin = some { s.setInfo s.transId (some {}) with transId := s.transId + 1 } := by
    simp only [step, transactionBegin, if_pos htid]
  refine ⟨_, .single hstep (.done trivial), ⟨h.books.step hstep, ?_, ?_, ?_⟩, rfl, rfl, rfl⟩
  · exact setInfo_infos_self s _ _
  · intro other hne
    exact (setInfo_infos_of_ne s _ _ _ hne).trans (h.infos other)
  · exact (h.books.bare h.infos).idle _

end Calls

-- The value in the log for a write, and the value that commit leaves in the store.
def logged : Write → Str
  | .set value => value
  | .del => REMOVESTRING

def stored : Option Write → Str
  | none => []
  | some write => written (logged write)

-- What get returns when the transaction and the committed ones have last done this to the slot.
def read (own last : Option Write) : Str :=
  match own with
  | some write => logged write
  | none => stored last

-- The log holds the writes of the transaction, and copies of the store where it has only read.
structure Logs (own : Writes) (ec : Slot → Str) (log : Slot → Option Str) : Prop where
  written : ∀ ino write, own ino = some write → log ino = some (logged write)
  kept : ∀ ino, own ino = none → log ino = none ∨ log ino = some (ec ino)

section Logs

variable {own last : Writes} {ec : Slot → Str} {log : Slot → Option Str}

theorem written_written (value : Str) : written (written value) = written value := by
  by_cases h : value = REMOVESTRING
  · rw [written, written, if_pos h]
    rfl
  · simp only [written, if_neg h]

theorem written_stored (write : Option Write) : written (stored write) = stored write := by
  cases write with
  | none => rfl
  | some write => exact written_written (logged write)

theorem Logs.read_eq (h : Logs own ec log) (hec : ec = fun ino => stored (last ino)) (ino : Slot) :
    (log ino).getD (ec ino) = read (own ino) (last ino) := by
  cases hown : own ino with
  | some write => rw [h.written ino write hown, Option.getD_some, read]
  | none =>
      rcases h.kept ino hown with hlog | hlog
      · rw [hlog, Option.getD_none, hec, read]
      · rw [hlog, Option.getD_some, hec, read]

theorem Logs.update (h : Logs own ec log) (ino : Slot) (write : Write) :
    Logs (Function.update own ino (some write)) ec (Function.update log ino (some (logged write))) := by
  constructor
  · intro other write' hown
    by_cases he : other = ino
    · subst he
      rw [Function.update_self] at hown ⊢
      rw [Option.some.inj hown]
    · rw [Function.update_of_ne he] at hown ⊢
      exact h.written other write' hown
  · intro other hown
    by_cases he : other = ino
    · subst he
      rw [Function.update_self] at hown
      cases hown
    · rw [Function.update_of_ne he] at hown ⊢
      exact h.kept other hown

-- Reading a slot enters it with the value that it has for the transaction.
theorem Logs.copy (h : Logs own ec log) (ino : Slot) :
    Logs own ec (Function.update log ino (some ((log ino).getD (ec ino)))) := by
  constructor
  · intro other write hown
    by_cases he : other = ino
    · subst he
      rw [Function.update_self, h.written other write hown, Option.getD_some]
    · rw [Function.update_of_ne he]
      exact h.written other write hown
  · intro other hown
    by_cases he : other = ino
    · subst he
      rw [Function.update_self]
      rcases h.kept other hown with hlog | hlog
      · exact .inr (by rw [hlog, Option.getD_none])
      · exact .inr (by rw [hlog, Option.getD_some])
    · rw [Function.update_of_ne he]
      exact h.kept other hown

theorem Logs.after (h : Logs own ec info.log) (op : Op) :
    Logs (own.note op) ec (info.after op (ec op.ino)).log := by
  cases op with
  | get key => exact h.copy (Ydb.hash key)
  | set key value => exact h.update (Ydb.hash key) (.set value)
  | del key => exact h.update (Ydb.hash key) .del

theorem Logs.committed (h : Logs own ec log) (hec : ec = fun ino => stored (last ino)) :
    committed log ec = fun ino => stored ((own ino).or (last ino)) := by
  funext ino
  simp only [TwoPhase.committed, overlay]
  cases hown : own ino with
  | some write => rw [h.written ino write hown, Option.map_some, Option.getD_some, Option.some_or, stored]
  | none =>
      rw [Option.none_or]
      rcases h.kept ino hown with hlog | hlog
      · rw [hlog, Option.map_none, Option.getD_none, hec]
      · rw [hlog, Option.map_some, Option.getD_some, hec]
        exact written_stored (last ino)

end Logs

theorem Serial.append {mid : State} {first second : List Request} (hfirst : Serial s first mid)
    (hsecond : Serial mid second next) : Serial s (first ++ second) next := by
  unfold Serial at *
  rw [List.map_append]
  exact hfirst.append hsecond

-- The server as one that runs serial histories.
def serialServer : SerialServer State where
  handles := Serial
  transId := State.transId
  replies := State.replies
  read := read
  closed last s := Closed s ∧ s.ec = fun ino => stored (last ino)
  opened id own last s := (s.ec = fun ino => stored (last ino)) ∧
    ∃ info, Alone s id info ∧ Logs own s.ec info.log
  nil := Handles.nil
  append := Serial.append
  begin := by
    rintro s last ⟨hclosed, hec⟩ htid
    obtain ⟨next, hbegin, halone, hecNext, htidNext, hreplies⟩ := hclosed.begin htid
    have hlogs : Logs (fun _ => none) next.ec ({} : Transaction).log :=
      ⟨fun _ _ hown => (nomatch hown), fun _ _ => .inl rfl⟩
    exact ⟨next, hbegin, ⟨hecNext.trans hec, _, halone, hlogs⟩, htidNext, hreplies⟩
  access := by
    rintro s id own last ⟨hec, info, halone, hlogs⟩ op
    obtain ⟨next, hserial, hnext, hanswer⟩ := halone.access op
    have hlogs' : Logs (own.note op) next.ec (info.after op (s.ec op.ino)).log := by
      rw [hanswer.ec]
      exact hlogs.after op
    refine ⟨next, hserial, ⟨hanswer.ec.trans hec, _, hnext, hlogs'⟩, hanswer.transId, ?_⟩
    rw [hanswer.replies, hlogs.read_eq hec]
    cases op <;> rfl
  commit := by
    rintro s id own last ⟨hec, info, halone, hlogs⟩
    obtain ⟨next, hserial, hclosed, hanswer⟩ := halone.commit
    exact ⟨next, hserial, ⟨hclosed, hanswer.ec.trans (hlogs.committed hec)⟩, hanswer.transId,
      hanswer.replies⟩
  abort := by
    rintro s id own last ⟨hec, info, halone, hlogs⟩
    obtain ⟨next, hserial, hclosed, hanswer⟩ := halone.abort
    exact ⟨next, hserial, ⟨hclosed, hanswer.ec.trans hec⟩, hanswer.transId, hanswer.replies⟩

theorem Closed.start (ec : Slot → Str) : Closed (start ec) := ⟨.start ec, fun _ => rfl⟩

end CseLabs.TwoPhase
