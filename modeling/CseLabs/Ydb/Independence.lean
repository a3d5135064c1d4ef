import CseLabs.Ydb.Agreement

namespace CseLabs.YdbServer

open Ydb

-- ydb_server: every call goes to the store at once, and the transaction number means nothing.
structure State where
  ec : Slot → Str
  replies : List Reply := []

def State.reply (s : State) (id : Tid) (call : Call) (value : Str) : State :=
  { s with replies := s.replies ++ [⟨id, call, .OK, value⟩] }

def handle (s : State) : Request → State
  | .begin => s
  | .call id (.get key) => s.reply id (.get key) (s.ec (Ydb.hash key))
  | .call id (.set key value) =>
      { s with ec := Function.update s.ec (Ydb.hash key) value }.reply id (.set key value) []
  | .call id (.del key) => { s with ec := Function.update s.ec (Ydb.hash key) [] }.reply id (.del key) []
  | .call id .commit => s.reply id .commit []
  | .call id .abort => s.reply id .abort []

def Serial (s : State) (requests : List Request) (next : State) : Prop := requests.foldl handle s = next

end CseLabs.YdbServer

namespace CseLabs.Ydb

open TwoPhase (Op REMOVESTRING)

section Probes

variable {σ : Type} (serial : σ → List Request → σ → Prop) (replies : σ → List Reply)

-- A new transaction, with number `id`, that gets `key`.
def Returns (id : Tid) (s : σ) (key value : Str) : Prop :=
  ∃ next, serial s [.begin, .call id (.get key)] next ∧
    replies next = replies s ++ [⟨id, .get key, .OK, value⟩]

-- A new transaction that makes one call and commits.
def Commits (id : Tid) (s : σ) (call : Call) (next : σ) : Prop :=
  serial s [.begin, .call id call, .call id .commit] next ∧
    replies next = replies s ++ [⟨id, call, .OK, []⟩, ⟨id, .commit, .OK, []⟩]

end Probes

-- The transaction sets a key, or deletes it.
def Write.op (key : Str) : Write → Op
  | .set value => .set key value
  | .del => .del key

theorem ino_write (key : Str) (write : Write) : (write.op key).ino = Ydb.hash key := by
  cases write <;> rfl

-- A write to one slot is seen in another one only if they are the same.
theorem update_eq_iff (ec : Slot → Str) (ino slot : Slot) (value : Str) :
    Function.update ec ino value slot = ec slot ↔ ino ≠ slot ∨ ec slot = value := by
  by_cases h : slot = ino
  · subst h
    simp [eq_comm]
  · simp [h, Ne.symm h]

end CseLabs.Ydb

namespace CseLabs.TwoPhase

open Ydb

variable {s next : State} {key value : Str}

theorem begin_of_serial {rest : List Request} (h : Serial s (.begin :: rest) next) :
    s.transId + 1 < 2 ^ 31 := by
  unfold Serial at h
  cases h with
  | cons hstep =>
      by_contra hlt
      simp only [step, event, transactionBegin, if_neg hlt] at hstep
      cases hstep

theorem Closed.returns (h : Closed s) (htid : s.transId + 1 < 2 ^ 31) (key : Str) :
    Returns Serial State.replies s.transId s key (s.ec (Ydb.hash key)) := by
  obtain ⟨begun, hbegin, halone, hec, -, hreplies⟩ := h.begin htid
  obtain ⟨next, hget, -, hanswer⟩ := halone.access (.get key)
  refine ⟨next, hbegin.append hget, ?_⟩
  rw [hanswer.replies, hreplies, hec]
  rfl

theorem Closed.returns_eq (h : Closed s)
    (hreturns : Returns Serial State.replies s.transId s key value) : value = s.ec (Ydb.hash key) := by
  obtain ⟨next, hserial, hreplies⟩ := hreturns
  obtain ⟨next', hserial', hreplies'⟩ := h.returns (begin_of_serial hserial) key
  rw [hserial.unique hserial', hreplies'] at hreplies
  simpa using hreplies.symm

theorem Closed.commits (h : Closed s) (htid : s.transId + 1 < 2 ^ 31) (key : Str) (write : Write) :
    ∃ next, Commits Serial State.replies s.transId s (write.op key).call next ∧ Closed next ∧
      next.ec = Function.update s.ec (Ydb.hash key) (stored (some write)) ∧
      next.transId = s.transId + 1 := by
  obtain ⟨begun, hbegin, halone, hec, htid, hreplies⟩ := h.begin htid
  obtain ⟨worked, hop, hworked, hanswer⟩ := halone.access (write.op key)
  obtain ⟨next, hcommit, hclosed, hanswer'⟩ := hworked.commit
  refine ⟨next, ⟨(hbegin.append hop).append hcommit, ?_⟩, hclosed, ?_, ?_⟩
  · rw [hanswer'.replies, hanswer.replies, hreplies, List.append_assoc]
    cases write <;> rfl
  · -- the log holds the one write
    rw [hanswer'.ec, hanswer.ec, hec]
    funext ino
    by_cases hino : ino = Ydb.hash key
    · subst hino
      cases write <;> simp [committed, Serial.overlay, Transaction.after, Op.logged, Op.ino, hash2pl,
        Write.op, stored, logged]
    · simp [committed, Serial.overlay, Transaction.after, ino_write, hino]
  · rw [hanswer'.transId, hanswer.transId, htid]

theorem Closed.commits_eq (h : Closed s) {write : Write}
    (hcommits : Commits Serial State.replies s.transId s (write.op key).call next) :
    Closed next ∧ next.ec = Function.update s.ec (Ydb.hash key) (stored (some write)) := by
  obtain ⟨next', hcommits', hclosed, hec, -⟩ := h.commits (begin_of_serial hcommits.1) key write
  rw [hcommits.1.unique hcommits'.1]
  exact ⟨hclosed, hec⟩

end CseLabs.TwoPhase

namespace CseLabs.Occ

open Ydb

variable {s next : State} {id : Tid} {key value : Str}

-- WRITESET is kept for the length of a commit.
def Kept (s : State) : Prop := ∀ id, s.lcWriteset = some id → (s.pc id).inCommit = true

theorem Kept.other (h : Kept s) (hlc : next.lcWriteset = s.lcWriteset) (hout : (s.pc id).inCommit = false)
    (hpc : ∀ other, other ≠ id → next.pc other = s.pc other) : Kept next := by
  intro other hother
  rw [hlc] at hother
  have hcommit := h other hother
  have hne : other ≠ id := by
    rintro rfl
    rw [hout] at hcommit
    cases hcommit
  rwa [hpc other hne]

theorem Kept.own (h : Kept s) (hlc : next.lcWriteset = s.lcWriteset) (hin : (next.pc id).inCommit = true)
    (hpc : ∀ other, other ≠ id → next.pc other = s.pc other) : Kept next := by
  intro other hother
  by_cases hne : other = id
  · rwa [hne]
  · rw [hpc other hne]
    exact h other (hlc ▸ hother)

theorem Kept.receive (h : Kept s) {call : Call} (hs : receive s id call = some next) : Kept next := by
  obtain ⟨hidle, hcases⟩ := receive_cases hs
  have hout : (s.pc id).inCommit = false := by
    rw [hidle]
    rfl
  have hstep : Step s (.call id call) next := hs
  have hsame : next.lcWriteset = s.lcWriteset → Kept next :=
    fun hlc => h.other hlc hout fun _ hne => (step_frame hstep hne).1
  obtain ⟨-, rfl⟩ | ⟨info, -, ⟨key, rfl, rfl⟩ | ⟨ino, value, -, rfl⟩ | ⟨-, rfl⟩ | ⟨-, rfl⟩⟩ := hcases
  · exact hsame rfl
  · obtain ⟨value, -, hget⟩ | ⟨old, -, -, hget⟩ | ⟨-, -, hget⟩ := get_cases s id info key
    · exact hsame (by rw [hget]; rfl)
    · exact hsame (by rw [hget]; rfl)
    · exact hsame (by rw [hget]; rfl)
  · exact hsame rfl
  · exact hsame rfl
  · exact hsame rfl

theorem Kept.commitStart (hs : commitStart s id = some next) : Kept next := by
  obtain ⟨info, -, -, -, rfl⟩ := commitStart_cases hs
  intro other hother
  obtain rfl : id = other := Option.some.inj hother
  rw [setPc_pc_self]
  rfl

theorem Kept.validate (h : Kept s) (hs : validate s id = some next) : Kept next := by
  rcases validate_cases hs with ⟨ino, value, rest, -, ⟨-, rfl⟩ | ⟨-, rfl⟩⟩ | ⟨info, -, -, rfl⟩
  · exact h.own rfl (by rw [setPc_pc_self]; rfl) fun other hne => setPc_pc_of_ne _ _ _ _ hne
  · intro other hother
    cases hother
  · exact h.own rfl (by rw [setPc_pc_self]; rfl) fun other hne => setPc_pc_of_ne _ _ _ _ hne

theorem Kept.put (h : Kept s) (hs : put s id = some next) : Kept next := by
  rcases put_cases hs with ⟨ino, value, rest, -, rfl⟩ | ⟨-, rfl⟩
  · exact h.own rfl (by rw [setPc_pc_self]; rfl) fun other hne => setPc_pc_of_ne _ _ _ _ hne
  · intro other hother
    cases hother

theorem Kept.step (h : Kept s) {event : Event} (hs : Step s event next) : Kept next := by
  unfold Step Occ.step at hs
  cases event with
  | begin =>
      obtain rfl := begin_cases hs
      exact h
  | call id call => exact h.receive hs
  | commitStart id => exact .commitStart hs
  | validate id => exact h.validate hs
  | put id => exact h.put hs

-- A server without open transactions has no call under way.
theorem calm_of_reachable {ec : Slot → Str} (hr : Reachable Step (· = start ec) s)
    (hnone : ∀ id, s.transactionInfos id = none) : Calm s := by
  have hidle : ∀ id, s.pc id = .idle := by
    intro id
    by_contra hpc
    exact ((reachable_inv hr).own id).busy hpc (hnone id)
  have hkept : Kept s := by
    refine hr.invariant Kept ?_ fun before event next h hs => h.step hs
    rintro start rfl id hid
    cases hid
  refine ⟨hidle, ?_⟩
  by_contra hlc
  obtain ⟨id, hid⟩ := Option.ne_none_iff_exists'.mp hlc
  have hcommit := hkept id hid
  rw [hidle id] at hcommit
  cases hcommit

theorem begin_of_serial {rest : List Request} (h : Serial s (.begin :: rest) next) :
    s.transId + 1 < 2 ^ 31 := by
  unfold Serial at h
  cases h with
  | cons hstep =>
      by_contra hlt
      simp only [step, event, transactionBegin, if_neg hlt] at hstep
      cases hstep

-- Every store is one that writes have left.
theorem Calm.closed (h : Calm s) : serialServer.closed (fun ino => some (.set (s.ec ino))) s :=
  ⟨h, rfl⟩

theorem Calm.returns (h : Calm s) (htid : s.transId + 1 < 2 ^ 31) (key : Str) :
    Returns Serial State.replies s.transId s key (s.ec (Ydb.hash key)) := by
  obtain ⟨begun, hbegin, hopened, -, hreplies⟩ := serialServer.begin h.closed htid
  obtain ⟨next, hget, -, -, hreplies'⟩ := serialServer.access hopened (.get key)
  refine ⟨next, Serial.append hbegin hget, ?_⟩
  rw [show next.replies = _ from hreplies', hreplies]
  rfl

theorem Calm.returns_eq (h : Calm s)
    (hreturns : Returns Serial State.replies s.transId s key value) : value = s.ec (Ydb.hash key) := by
  obtain ⟨next, hserial, hreplies⟩ := hreturns
  obtain ⟨next', hserial', hreplies'⟩ := h.returns (begin_of_serial hserial) key
  rw [hserial.unique hserial', hreplies'] at hreplies
  simpa using hreplies.symm

theorem Calm.commits (h : Calm s) (htid : s.transId + 1 < 2 ^ 31) (key : Str) (write : Write) :
    ∃ next, Commits Serial State.replies s.transId s (write.op key).call next ∧ Calm next ∧
      next.ec = Function.update s.ec (Ydb.hash key) (stored (some write)) ∧
      next.transId = s.transId + 1 := by
  obtain ⟨begun, hbegin, hopened, htid, hreplies⟩ := serialServer.begin h.closed htid
  obtain ⟨worked, hop, hworked, htid', hreplies'⟩ := serialServer.access hopened (write.op key)
  obtain ⟨next, hcommit, ⟨hcalm, hec⟩, htid'', hreplies''⟩ := serialServer.commit hworked
  refine ⟨next, ⟨Serial.append (Serial.append hbegin hop) hcommit, ?_⟩, hcalm, ?_, ?_⟩
  · rw [show next.replies = _ from hreplies'', hreplies', hreplies, List.append_assoc]
    cases write <;> rfl
  · rw [hec]
    funext ino
    by_cases hino : ino = Ydb.hash key
    · subst hino
      cases write <;> simp [Writes.note, Write.op]
    · cases write <;> simp [Writes.note, Write.op, hino, stored, written]
  · exact (htid''.trans htid').trans htid

theorem Calm.commits_eq (h : Calm s) {write : Write}
    (hcommits : Commits Serial State.replies s.transId s (write.op key).call next) :
    Calm next ∧ next.ec = Function.update s.ec (Ydb.hash key) (stored (some write)) := by
  obtain ⟨next', hcommits', hcalm, hec, -⟩ := h.commits (begin_of_serial hcommits.1) key write
  rw [hcommits.1.unique hcommits'.1]
  exact ⟨hcalm, hec⟩

end CseLabs.Occ

namespace CseLabs.YdbServer

open Ydb

variable {s next : State} {id : Tid} {key value : Str}

theorem returns_iff : Returns Serial State.replies id s key value ↔ value = s.ec (Ydb.hash key) := by
  constructor
  · rintro ⟨next, rfl, hreplies⟩
    simpa [handle, State.reply, eq_comm] using hreplies
  · rintro rfl
    exact ⟨_, rfl, rfl⟩

theorem commits_iff {write : Write} :
    Commits Serial State.replies id s (write.op key).call next ↔
      next = { ec := Function.update s.ec (Ydb.hash key) (Occ.stored (some write))
               replies := s.replies ++ [⟨id, (write.op key).call, .OK, []⟩, ⟨id, .commit, .OK, []⟩] } := by
  have hrun : [.begin, .call id (write.op key).call, .call id .commit].foldl handle s =
      { ec := Function.update s.ec (Ydb.hash key) (Occ.stored (some write))
        replies := s.replies ++ [⟨id, (write.op key).call, .OK, []⟩, ⟨id, .commit, .OK, []⟩] } := by
    cases write <;> simp [handle, State.reply, Write.op, TwoPhase.Op.call, Occ.stored, Occ.written]
  unfold Commits Serial
  rw [hrun]
  constructor
  · rintro ⟨rfl, -⟩
    rfl
  · rintro rfl
    exact ⟨rfl, rfl⟩

end CseLabs.YdbServer

namespace CseLabs.Ydb

-- A transaction that sets or deletes `k1` changes what a later get of `k2` returns exactly when
-- the keys have the same hash and the slot reads as something else before.
theorem keys_independent (k1 k2 : Str) (write : Write) :
    (∀ (s next : YdbServer.State) (id before after : Tid) (value value' : Str),
      Commits YdbServer.Serial YdbServer.State.replies id s (write.op k1).call next →
      Returns YdbServer.Serial YdbServer.State.replies before s k2 value →
      Returns YdbServer.Serial YdbServer.State.replies after next k2 value' →
      (value' = value ↔ Ydb.hash k1 ≠ Ydb.hash k2 ∨ s.ec (Ydb.hash k2) = Occ.stored (some write))) ∧
    (∀ (ec : Slot → Str) (s next : TwoPhase.State) (value value' : Str),
      Reachable TwoPhase.Step (· = TwoPhase.start ec) s → (∀ id, s.transactionInfos id = none) →
      Commits TwoPhase.Serial TwoPhase.State.replies s.transId s (write.op k1).call next →
      Returns TwoPhase.Serial TwoPhase.State.replies s.transId s k2 value →
      Returns TwoPhase.Serial TwoPhase.State.replies next.transId next k2 value' →
      (value' = value ↔ Ydb.hash k1 ≠ Ydb.hash k2 ∨ s.ec (Ydb.hash k2) = TwoPhase.stored (some write))) ∧
    ∀ (ec : Slot → Str) (s next : Occ.State) (value value' : Str),
      Reachable Occ.Step (· = Occ.start ec) s → (∀ id, s.transactionInfos id = none) →
      Commits Occ.Serial Occ.State.replies s.transId s (write.op k1).call next →
      Returns Occ.Serial Occ.State.replies s.transId s k2 value →
      Returns Occ.Serial Occ.State.replies next.transId next k2 value' →
      (value' = value ↔ Ydb.hash k1 ≠ Ydb.hash k2 ∨ s.ec (Ydb.hash k2) = Occ.stored (some write)) := by
  refine ⟨?_, ?_, ?_⟩
  · intro s next id before after value value' hcommits hbefore hafter
    rw [YdbServer.commits_iff.mp hcommits] at hafter
    rw [YdbServer.returns_iff.mp hbefore, YdbServer.returns_iff.mp hafter]
    exact update_eq_iff s.ec _ _ _
  · intro ec s next value value' hr hnone hcommits hbefore hafter
    have hclosed : TwoPhase.Closed s := ⟨TwoPhase.reachable_books hr, hnone⟩
    obtain ⟨hnext, hec⟩ := hclosed.commits_eq hcommits
    rw [hclosed.returns_eq hbefore, hnext.returns_eq hafter, hec]
    exact update_eq_iff s.ec _ _ _
  · intro ec s next value value' hr hnone hcommits hbefore hafter
    have hcalm := Occ.calm_of_reachable hr hnone
    obtain ⟨hnext, hec⟩ := hcalm.commits_eq hcommits
    rw [hcalm.returns_eq hbefore, hnext.returns_eq hafter, hec]
    exact update_eq_iff s.ec _ _ _

-- "a" is set and "b" is read.
theorem keys_independent_apart : ∃ value, Ydb.hash [97] ≠ Ydb.hash [98] ∧
    ∃ s next : TwoPhase.State,
      Commits TwoPhase.Serial TwoPhase.State.replies s.transId s (.set [97] [1]) next ∧
      Returns TwoPhase.Serial TwoPhase.State.replies s.transId s [98] value ∧
      Returns TwoPhase.Serial TwoPhase.State.replies next.transId next [98] value := by
  have hclosed : TwoPhase.Closed (TwoPhase.start fun _ => []) := .start _
  have hne : Ydb.hash [97] ≠ Ydb.hash [98] := by decide
  obtain ⟨next, hcommits, hnext, hec, htid⟩ := hclosed.commits (by decide) [97] (.set [1])
  have hbefore := hclosed.returns (by decide) [98]
  have hafter := hnext.returns (by rw [htid]; decide) [98]
  have hsame := ((keys_independent [97] [98] (.set [1])).2.1 _ _ next _ _ (.start rfl) (fun _ => rfl)
    hcommits hbefore hafter).mpr (.inl hne)
  rw [hsame] at hafter
  exact ⟨_, hne, _, next, hcommits, hbefore, hafter⟩

-- "Aa" and "BB" have the same hash. "Aa" is set to "1", and "BB" reads as "1" from then on.
theorem keys_collide : [65, 97] ≠ ([66, 66] : Str) ∧
    (∃ s next : YdbServer.State,
      Commits YdbServer.Serial YdbServer.State.replies 0 s (.set [65, 97] [49]) next ∧
      Returns YdbServer.Serial YdbServer.State.replies 1 s [66, 66] [] ∧
      Returns YdbServer.Serial YdbServer.State.replies 1 next [66, 66] [49]) ∧
    (∃ s next : TwoPhase.State, Reachable TwoPhase.Step (· = TwoPhase.start fun _ => []) s ∧
      (∀ id, s.transactionInfos id = none) ∧
      Commits TwoPhase.Serial TwoPhase.State.replies s.transId s (.set [65, 97] [49]) next ∧
      Returns TwoPhase.Serial TwoPhase.State.replies s.transId s [66, 66] [] ∧
      Returns TwoPhase.Serial TwoPhase.State.replies next.transId next [66, 66] [49]) ∧
    ∃ s next : Occ.State, Reachable Occ.Step (· = Occ.start fun _ => []) s ∧
      (∀ id, s.transactionInfos id = none) ∧
      Commits Occ.Serial Occ.State.replies s.transId s (.set [65, 97] [49]) next ∧
      Returns Occ.Serial Occ.State.replies s.transId s [66, 66] [] ∧
      Returns Occ.Serial Occ.State.replies next.transId next [66, 66] [49] := by
  have hsame : Ydb.hash [66, 66] = Ydb.hash [65, 97] := by decide
  have hread : ∀ ec : Slot → Str, Function.update ec (Ydb.hash [65, 97]) [49] (Ydb.hash [66, 66]) = [49] := by
    intro ec
    rw [hsame, Function.update_self]
  refine ⟨by decide, ?_, ?_, ?_⟩
  · have hcommits : Commits YdbServer.Serial YdbServer.State.replies 0 { ec := fun _ => [] }
        (Write.op [65, 97] (.set [49])).call _ := YdbServer.commits_iff.mpr rfl
    exact ⟨_, _, hcommits, YdbServer.returns_iff.mpr rfl, YdbServer.returns_iff.mpr (hread fun _ => []).symm⟩
  · have hclosed : TwoPhase.Closed (TwoPhase.start fun _ => []) := .start _
    obtain ⟨next, hcommits, hnext, hec, htid⟩ := hclosed.commits (by decide) [65, 97] (.set [49])
    have hafter := hnext.returns (by rw [htid]; decide) [66, 66]
    rw [hec] at hafter
    have hvalue : Function.update (TwoPhase.start fun _ => []).ec (Ydb.hash [65, 97])
        (TwoPhase.stored (some (.set [49]))) (Ydb.hash [66, 66]) = [49] := hread _
    rw [hvalue] at hafter
    exact ⟨_, next, .start rfl, fun _ => rfl, hcommits, hclosed.returns (by decide) [66, 66], hafter⟩
  · have hcalm : Occ.Calm (Occ.start fun _ => []) := ⟨fun _ => rfl, rfl⟩
    obtain ⟨next, hcommits, hnext, hec, htid⟩ := hcalm.commits (by decide) [65, 97] (.set [49])
    have hafter := hnext.returns (by rw [htid]; decide) [66, 66]
    rw [hec] at hafter
    have hvalue : Function.update (Occ.start fun _ => []).ec (Ydb.hash [65, 97])
        (Occ.stored (some (.set [49]))) (Ydb.hash [66, 66]) = [49] := hread _
    rw [hvalue] at hafter
    exact ⟨_, next, .start rfl, fun _ => rfl, hcommits, hcalm.returns (by decide) [66, 66], hafter⟩

end CseLabs.Ydb
