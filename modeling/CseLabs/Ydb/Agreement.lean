import CseLabs.TwoPhase.Serial
import CseLabs.Occ.Serial

namespace CseLabs.Ydb

open TwoPhase (REMOVESTRING)

-- The slot that a get looks at was deleted by the transaction itself, or it holds the removal
-- marker as a committed value.
def View.marked (view : View) : Prop :=
  view.own = some .del ∨ view.own = none ∧ view.last = some (.set REMOVESTRING)

instance (view : View) : Decidable view.marked :=
  inferInstanceAs (Decidable (_ ∨ _))

-- No get of a history meets the removal marker.
def Unmarked (history : List Txn) : Prop :=
  ∀ view ∈ views 0 (fun _ => none) history, view.isGet = true → ¬ view.marked

instance (history : List Txn) : Decidable (Unmarked history) :=
  inferInstanceAs (Decidable (∀ view ∈ _, _))

theorem read_eq_iff (view : View) :
    TwoPhase.read view.own view.last = Occ.read view.own view.last ↔ ¬ view.marked := by
  obtain ⟨id, call, own, last⟩ := view
  match own, last with
  | some (.set value), _ => simp [TwoPhase.read, TwoPhase.logged, Occ.read, Occ.written, View.marked]
  | some .del, _ => simp [TwoPhase.read, TwoPhase.logged, Occ.read, Occ.written, View.marked, REMOVESTRING]
  | none, none => simp [TwoPhase.read, TwoPhase.stored, Occ.read, Occ.stored, View.marked]
  | none, some .del =>
      simp [TwoPhase.read, TwoPhase.stored, TwoPhase.logged, TwoPhase.written, Occ.read, Occ.stored,
        Occ.written, View.marked]
  | none, some (.set value) =>
      by_cases h : value = REMOVESTRING
      · simp [TwoPhase.read, TwoPhase.stored, TwoPhase.logged, TwoPhase.written, Occ.read, Occ.stored,
          Occ.written, View.marked, h, REMOVESTRING]
      · simp [TwoPhase.read, TwoPhase.stored, TwoPhase.logged, TwoPhase.written, Occ.read, Occ.stored,
          Occ.written, View.marked, h]

-- A history from the start of a server.
theorem SerialServer.history_of_start {σ : Type} (server : SerialServer σ) {s : σ}
    (h : server.closed (fun _ => none) s) (htid : server.transId s = 0) (hreplies : server.replies s = [])
    (history : List Txn) (hlen : history.length < INODE_NUM) :
    ∃ next, server.handles s (requests 0 history) next ∧
      server.replies next = (views 0 (fun _ => none) history).map (View.reply server.read) := by
  have hlen' : server.transId s + history.length < 2 ^ 31 := by
    rw [htid, Nat.zero_add]
    exact hlen.trans (by decide)
  have hhistory := server.history h history hlen'
  rw [htid, hreplies] at hhistory
  exact hhistory

theorem twoPhase_serial (history : List Txn) (hlen : history.length < INODE_NUM) :
    ∃ s, TwoPhase.Serial (TwoPhase.start fun _ => []) (requests 0 history) s ∧
      s.replies = (views 0 (fun _ => none) history).map (View.reply TwoPhase.read) :=
  TwoPhase.serialServer.history_of_start ⟨.start _, rfl⟩ rfl rfl history hlen

theorem occ_serial (history : List Txn) (hlen : history.length < INODE_NUM) :
    ∃ s, Occ.Serial (Occ.start fun _ => []) (requests 0 history) s ∧
      s.replies = (views 0 (fun _ => none) history).map (View.reply Occ.read) :=
  Occ.serialServer.history_of_start ⟨⟨fun _ => rfl, rfl⟩, rfl⟩ rfl rfl history hlen

-- The two servers run every serial history, and give the same answers exactly when no get
-- meets the removal marker.
theorem serial_agreement (history : List Txn) (hlen : history.length < INODE_NUM) :
    (∃ s, TwoPhase.Serial (TwoPhase.start fun _ => []) (requests 0 history) s) ∧
    (∃ s, Occ.Serial (Occ.start fun _ => []) (requests 0 history) s) ∧
    ∀ s s', TwoPhase.Serial (TwoPhase.start fun _ => []) (requests 0 history) s →
      Occ.Serial (Occ.start fun _ => []) (requests 0 history) s' →
      (s.replies = s'.replies ↔ Unmarked history) := by
  obtain ⟨twoPhase, htwoPhase, hreplies⟩ := twoPhase_serial history hlen
  obtain ⟨occ, hocc, hreplies'⟩ := occ_serial history hlen
  refine ⟨⟨twoPhase, htwoPhase⟩, ⟨occ, hocc⟩, ?_⟩
  intro s s' hs hs'
  rw [hs.unique htwoPhase, hs'.unique hocc, hreplies, hreplies', map_reply_eq]
  exact forall₂_congr fun view _ => imp_congr_right fun _ => read_eq_iff view

-- A value that is set and committed, and read by the next transaction.
theorem serial_agreement_set_get :
    ∃ s s', TwoPhase.Serial (TwoPhase.start fun _ => [])
        (requests 0 [⟨[.set [] [1]], true⟩, ⟨[.get []], true⟩]) s ∧
      Occ.Serial (Occ.start fun _ => []) (requests 0 [⟨[.set [] [1]], true⟩, ⟨[.get []], true⟩]) s' ∧
      s.replies = s'.replies := by
  obtain ⟨⟨s, hs⟩, ⟨s', hs'⟩, hiff⟩ :=
    serial_agreement [⟨[.set [] [1]], true⟩, ⟨[.get []], true⟩] (by decide)
  exact ⟨s, s', hs, hs', (hiff s s' hs hs').mpr (by decide +kernel)⟩

-- A transaction deletes a key and reads it. The two-phase locking server answers REMOVESTRING,
-- the other one the empty string.
theorem serial_disagreement :
    ∃ s s', TwoPhase.Serial (TwoPhase.start fun _ => []) (requests 0 [⟨[.del [], .get []], true⟩]) s ∧
      Occ.Serial (Occ.start fun _ => []) (requests 0 [⟨[.del [], .get []], true⟩]) s' ∧
      (⟨0, .get [], .OK, REMOVESTRING⟩ : Reply) ∈ s.replies ∧ s.replies ≠ s'.replies := by
  obtain ⟨s, hs, hreplies⟩ := twoPhase_serial [⟨[.del [], .get []], true⟩] (by decide)
  obtain ⟨s', hs', hreplies'⟩ := occ_serial [⟨[.del [], .get []], true⟩] (by decide)
  refine ⟨s, s', hs, hs', ?_, ?_⟩
  · rw [hreplies]
    decide +kernel
  · rw [hreplies, hreplies']
    decide +kernel

end CseLabs.Ydb
