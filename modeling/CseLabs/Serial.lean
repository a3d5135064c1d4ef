import Mathlib.Logic.Function.Basic
import Mathlib.Tactic

namespace CseLabs.Serial

variable {κ ν : Type*} [DecidableEq κ]

-- A call of a transaction on a slot of the store, with the value that a read
-- returned.
inductive Access (κ ν : Type*)
  | read (slot : κ) (value : ν)
  | write (slot : κ) (value : ν)

def Access.apply (store : κ → ν) : Access κ ν → κ → ν
  | .read _ _ => store
  | .write slot value => Function.update store slot value

def Access.Ok (store : κ → ν) : Access κ ν → Prop
  | .read slot value => store slot = value
  | .write _ _ => True

def replay (store : κ → ν) (accesses : List (Access κ ν)) : κ → ν :=
  accesses.foldl Access.apply store

-- Every read returns what the store holds when its turn comes.
def Faithful (store : κ → ν) : List (Access κ ν) → Prop
  | [] => True
  | access :: rest => access.Ok store ∧ Faithful (access.apply store) rest

-- The transactions run one after another, from `init` to `final`, and their reads
-- return what they returned.
def SerialRun (init : κ → ν) : List (List (Access κ ν)) → (κ → ν) → Prop
  | [], final => final = init
  | txn :: rest, final => Faithful init txn ∧ SerialRun (replay init txn) rest final

section Replay

variable (store : κ → ν)

theorem replay_append (left right : List (Access κ ν)) :
    replay store (left ++ right) = replay (replay store left) right := by
  simp [replay]

@[simp] theorem replay_read (slot : κ) (value : ν) : replay store [.read slot value] = store := rfl

@[simp] theorem replay_write (slot : κ) (value : ν) :
    replay store [.write slot value] = Function.update store slot value := rfl

theorem faithful_append (left right : List (Access κ ν)) :
    Faithful store (left ++ right) ↔ Faithful store left ∧ Faithful (replay store left) right := by
  induction left generalizing store with
  | nil => simp [Faithful, replay]
  | cons access left ih =>
      simp only [List.cons_append, Faithful, ih, and_assoc]
      rfl

theorem serialRun_snoc (txns : List (List (Access κ ν))) (txn : List (Access κ ν)) {final : κ → ν}
    (h : SerialRun store txns final) (htxn : Faithful final txn) :
    SerialRun store (txns ++ [txn]) (replay final txn) := by
  induction txns generalizing store with
  | nil =>
      have hfinal : final = store := h
      subst hfinal
      exact ⟨htxn, rfl⟩
  | cons first rest ih => exact ⟨h.1, ih _ h.2⟩

end Replay

-- Buffered writes over a store.
def overlay (writes : κ → Option ν) (store : κ → ν) : κ → ν :=
  fun slot => (writes slot).getD (store slot)

def Agrees (reads : κ → Option ν) (store : κ → ν) : Prop :=
  ∀ slot value, reads slot = some value → store slot = value

theorem overlay_update (writes : κ → Option ν) (store : κ → ν) (slot : κ) (value : ν) :
    overlay (Function.update writes slot (some value)) store =
      Function.update (overlay writes store) slot value := by
  funext other
  by_cases h : other = slot
  · subst h
    simp [overlay]
  · simp [overlay, h]

-- What a transaction with buffered writes has done so far is right in every store
-- that agrees with what it relies on.
def Tracks (reads writes : κ → Option ν) (accesses : List (Access κ ν)) : Prop :=
  ∀ store, Agrees reads store → Faithful store accesses ∧ replay store accesses = overlay writes store

namespace Tracks

variable {reads writes : κ → Option ν} {accesses : List (Access κ ν)}

theorem nil (reads : κ → Option ν) : Tracks reads (fun _ => none) [] :=
  fun _ _ => ⟨trivial, rfl⟩

theorem mono {reads' : κ → Option ν} (h : Tracks reads writes accesses)
    (hreads : ∀ slot value, reads slot = some value → reads' slot = some value) :
    Tracks reads' writes accesses :=
  fun store hagree => h store fun slot value hs => hagree slot value (hreads slot value hs)

theorem read (h : Tracks reads writes accesses) {slot : κ} {value : ν}
    (hvalue : ∀ store, Agrees reads store → overlay writes store slot = value) :
    Tracks reads writes (accesses ++ [.read slot value]) := by
  intro store hagree
  obtain ⟨hfaithful, hreplay⟩ := h store hagree
  rw [faithful_append, replay_append, hreplay]
  exact ⟨⟨hfaithful, hvalue store hagree, trivial⟩, rfl⟩

theorem write (h : Tracks reads writes accesses) (slot : κ) (value : ν) :
    Tracks reads (Function.update writes slot (some value)) (accesses ++ [.write slot value]) := by
  intro store hagree
  obtain ⟨hfaithful, hreplay⟩ := h store hagree
  rw [faithful_append, replay_append, hreplay, overlay_update]
  exact ⟨⟨hfaithful, trivial, trivial⟩, rfl⟩

-- Buffering a value that the store is known to hold changes nothing.
theorem buffer (h : Tracks reads writes accesses) {slot : κ} {value : ν}
    (hvalue : ∀ store, Agrees reads store → overlay writes store slot = value) :
    Tracks reads (Function.update writes slot (some value)) accesses := by
  intro store hagree
  obtain ⟨hfaithful, hreplay⟩ := h store hagree
  refine ⟨hfaithful, ?_⟩
  rw [hreplay, overlay_update, ← hvalue store hagree, Function.update_eq_self]

end Tracks

section Objects

variable {σ ε ρ : Type*}

-- A history of operations on one object and their results, as the object gives them when the
-- operations are applied one after another.
def Replays (apply : ε → σ → σ × ρ) (init : σ) : List (ε × ρ) → σ → Prop
  | [], final => final = init
  | (op, result) :: rest, final => (apply op init).2 = result ∧ Replays apply (apply op init).1 rest final

theorem replays_snoc {apply : ε → σ → σ × ρ} {init mid : σ} {history : List (ε × ρ)} (op : ε)
    (h : Replays apply init history mid) :
    Replays apply init (history ++ [(op, (apply op mid).2)]) (apply op mid).1 := by
  induction history generalizing init with
  | nil =>
      cases h
      exact ⟨rfl, rfl⟩
  | cons head rest ih => exact ⟨h.1, ih h.2⟩

end Objects

end CseLabs.Serial
