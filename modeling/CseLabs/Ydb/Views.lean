import CseLabs.TwoPhase

namespace CseLabs.Ydb

open TwoPhase (Op)

-- A transaction of a serial history: its calls, and whether it commits or aborts.
structure Txn where
  ops : List Op
  commit : Bool

def Txn.ending (txn : Txn) : Call := if txn.commit then .commit else .abort

-- The last thing that was done to a slot.
inductive Write
  | set (value : Str)
  | del
  deriving DecidableEq

abbrev Writes := Slot → Option Write

def Writes.note (writes : Writes) : Op → Writes
  | .get _ => writes
  | .set key value => Function.update writes (hash key) (some (.set value))
  | .del key => Function.update writes (hash key) (some .del)

def Txn.writes (txn : Txn) : Writes := txn.ops.foldl Writes.note fun _ => none

-- The committed writes after a transaction.
def Txn.settle (txn : Txn) (last : Writes) : Writes :=
  if txn.commit then fun ino => (txn.writes ino).or (last ino) else last

-- A call of a serial history, with the last write of its transaction to the slot and the last
-- write to it that has been committed.
structure View where
  id : Tid
  call : Call
  own : Option Write
  last : Option Write

def opViews (id : Tid) (last : Writes) : Writes → List Op → List View
  | _, [] => []
  | own, op :: rest => ⟨id, op.call, own op.ino, last op.ino⟩ :: opViews id last (own.note op) rest

-- All calls of a history in which transactions run one after another, the first with number `id`.
def views : Tid → Writes → List Txn → List View
  | _, _, [] => []
  | id, last, txn :: rest =>
      opViews id last (fun _ => none) txn.ops ++
        ⟨id, txn.ending, none, none⟩ :: views (id + 1) (txn.settle last) rest

-- The answer of a server whose gets return `read` of the two writes.
def View.reply (read : Option Write → Option Write → Str) (view : View) : Reply where
  id := view.id
  call := view.call
  status := .OK
  value := match view.call with
    | .get _ => read view.own view.last
    | _ => []

-- What the client of a serial history asks the server for.
inductive Request
  | begin
  | call (id : Tid) (call : Call)

def Txn.requests (id : Tid) (txn : Txn) : List Request :=
  .begin :: (txn.ops.map fun op => .call id op.call) ++ [.call id txn.ending]

def requests : Tid → List Txn → List Request
  | _, [] => []
  | id, txn :: rest => txn.requests id ++ requests (id + 1) rest

def View.isGet (view : View) : Bool :=
  match view.call with
  | .get _ => true
  | _ => false

-- Two servers answer alike when their gets do.
theorem map_reply_eq {read read' : Option Write → Option Write → Str} {list : List View} :
    list.map (View.reply read) = list.map (View.reply read') ↔
      ∀ view ∈ list, view.isGet = true → read view.own view.last = read' view.own view.last := by
  rw [List.map_inj_left]
  refine forall₂_congr fun view _ => ?_
  obtain ⟨id, call, own, last⟩ := view
  cases call <;> simp [View.reply, View.isGet]

-- A server that answers serial histories with `read`. `closed last` says that no transaction is
-- open and that the store is as the writes `last` have left it, `opened id own last` that
-- transaction `id` has done the writes `own`.
structure SerialServer (σ : Type) where
  handles : σ → List Request → σ → Prop
  transId : σ → Tid
  replies : σ → List Reply
  read : Option Write → Option Write → Str
  closed : Writes → σ → Prop
  opened : Tid → Writes → Writes → σ → Prop
  nil : ∀ s, handles s [] s
  append : ∀ {s mid next first second}, handles s first mid → handles mid second next →
    handles s (first ++ second) next
  begin : ∀ {s last}, closed last s → transId s + 1 < 2 ^ 31 →
    ∃ next, handles s [.begin] next ∧ opened (transId s) (fun _ => none) last next ∧
      transId next = transId s + 1 ∧ replies next = replies s
  access : ∀ {s id own last}, opened id own last s → ∀ op,
    ∃ next, handles s [.call id op.call] next ∧ opened id (own.note op) last next ∧
      transId next = transId s ∧
      replies next = replies s ++ [View.reply read ⟨id, op.call, own op.ino, last op.ino⟩]
  commit : ∀ {s id own last}, opened id own last s →
    ∃ next, handles s [.call id .commit] next ∧ closed (fun ino => (own ino).or (last ino)) next ∧
      transId next = transId s ∧ replies next = replies s ++ [⟨id, .commit, .OK, []⟩]
  abort : ∀ {s id own last}, opened id own last s →
    ∃ next, handles s [.call id .abort] next ∧ closed last next ∧
      transId next = transId s ∧ replies next = replies s ++ [⟨id, .abort, .OK, []⟩]

namespace SerialServer

variable {σ : Type} (server : SerialServer σ) {s : σ} {last : Writes}

theorem ops {id : Tid} {own : Writes} (h : server.opened id own last s) (ops : List Op) :
    ∃ next, server.handles s (ops.map fun op => .call id op.call) next ∧
      server.opened id (ops.foldl Writes.note own) last next ∧
      server.transId next = server.transId s ∧
      server.replies next = server.replies s ++ (opViews id last own ops).map (View.reply server.read) := by
  induction ops generalizing s own with
  | nil => exact ⟨s, server.nil s, h, rfl, by simp [opViews]⟩
  | cons op rest ih =>
      obtain ⟨mid, hop, hmid, htid, hreplies⟩ := server.access h op
      obtain ⟨next, hrest, hnext, htid', hreplies'⟩ := ih hmid
      refine ⟨next, server.append hop hrest, hnext, htid'.trans htid, ?_⟩
      rw [hreplies', hreplies, List.append_assoc]
      rfl

theorem ending {id : Tid} {txn : Txn} (h : server.opened id txn.writes last s) :
    ∃ next, server.handles s [.call id txn.ending] next ∧ server.closed (txn.settle last) next ∧
      server.transId next = server.transId s ∧
      server.replies next = server.replies s ++ [View.reply server.read ⟨id, txn.ending, none, none⟩] := by
  unfold Txn.ending Txn.settle
  cases txn.commit with
  | true => exact server.commit h
  | false => exact server.abort h

theorem txn (h : server.closed last s) (htid : server.transId s + 1 < 2 ^ 31) (txn : Txn) :
    ∃ next, server.handles s (txn.requests (server.transId s)) next ∧
      server.closed (txn.settle last) next ∧ server.transId next = server.transId s + 1 ∧
      server.replies next = server.replies s ++
        (opViews (server.transId s) last (fun _ => none) txn.ops).map (View.reply server.read) ++
        [View.reply server.read ⟨server.transId s, txn.ending, none, none⟩] := by
  obtain ⟨begun, hbegin, hopened, htidBegun, hrepliesBegun⟩ := server.begin h htid
  obtain ⟨worked, hops, hworked, htidWorked, hrepliesWorked⟩ := server.ops hopened txn.ops
  obtain ⟨next, hend, hclosed, htidNext, hrepliesNext⟩ := server.ending hworked
  refine ⟨next, server.append (server.append hbegin hops) hend, hclosed, ?_, ?_⟩
  · rw [htidNext, htidWorked, htidBegun]
  · rw [hrepliesNext, hrepliesWorked, hrepliesBegun]

-- Every serial history runs to its end, with the answers of its views.
theorem history (h : server.closed last s) (history : List Txn)
    (htid : server.transId s + history.length < 2 ^ 31) :
    ∃ next, server.handles s (requests (server.transId s) history) next ∧
      server.replies next = server.replies s ++
        (views (server.transId s) last history).map (View.reply server.read) := by
  induction history generalizing s last with
  | nil => exact ⟨s, server.nil s, by simp [views]⟩
  | cons txn rest ih =>
      have hlength : server.transId s + 1 + rest.length < 2 ^ 31 := by
        rwa [Nat.add_assoc, Nat.add_comm 1]
      obtain ⟨mid, htxn, hmid, htidMid, hreplies⟩ :=
        server.txn h ((Nat.le_add_right _ _).trans_lt hlength) txn
      obtain ⟨next, hrest, hrepliesNext⟩ := ih hmid (htidMid ▸ hlength)
      rw [htidMid] at hrest hrepliesNext
      refine ⟨next, server.append htxn hrest, ?_⟩
      rw [hrepliesNext, hreplies]
      simp [views]

end SerialServer

end CseLabs.Ydb
