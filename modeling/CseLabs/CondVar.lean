import Mathlib.Data.List.Perm.Basic
import Mathlib.Tactic

namespace CseLabs

-- The threads at a condition variable: those that sleep, and those that have been woken and have
-- not taken the mutex since.
structure CondVar (τ : Type*) where
  asleep : List τ := []
  woken : List τ := []
  deriving DecidableEq

namespace CondVar

variable {τ : Type*}

def wait (c : CondVar τ) (thread : τ) : CondVar τ :=
  { c with asleep := c.asleep ++ [thread] }

def broadcast (c : CondVar τ) : CondVar τ :=
  { asleep := [], woken := c.woken ++ c.asleep }

def threads (c : CondVar τ) : List τ := c.asleep ++ c.woken

-- So many woken threads are on their way that no sleeping one is needed for the work there is.
def Covers (c : CondVar τ) (work : Nat) : Prop := c.asleep ≠ [] → work ≤ c.woken.length

theorem Covers.mono {c : CondVar τ} {work less : Nat} (h : c.Covers work) (hle : less ≤ work) : c.Covers less :=
  fun hne => hle.trans (h hne)

theorem covers_zero (c : CondVar τ) : c.Covers 0 := fun _ => Nat.zero_le _

theorem broadcast_threads (c : CondVar τ) : c.broadcast.threads.Perm c.threads := by
  simp only [threads, broadcast, List.nil_append]
  exact List.perm_append_comm

theorem wait_threads (c : CondVar τ) (thread : τ) : (c.wait thread).threads.Perm (thread :: c.threads) := by
  simp [wait, threads]

variable [DecidableEq τ]

-- The wait of one sleeping thread is over.
def wake (c : CondVar τ) (thread : τ) : Option (CondVar τ) :=
  if thread ∈ c.asleep then
    some { asleep := c.asleep.erase thread, woken := c.woken ++ [thread] }
  else none

-- A signal wakes some thread if any sleeps.
def signal (c : CondVar τ) : Option τ → Option (CondVar τ)
  | some thread => c.wake thread
  | none => if c.asleep = [] then some c else none

-- A woken thread has the mutex again.
def resume (c : CondVar τ) (thread : τ) : Option (CondVar τ) :=
  if thread ∈ c.woken then some { c with woken := c.woken.erase thread } else none

-- A sleeping thread has the mutex again without having been woken.
def leave (c : CondVar τ) (thread : τ) : Option (CondVar τ) :=
  if thread ∈ c.asleep then some { c with asleep := c.asleep.erase thread } else none

-- A thread has the mutex again, whether it was woken or not.
def back (c : CondVar τ) (thread : τ) : Option (CondVar τ) :=
  if thread ∈ c.woken then c.resume thread else c.leave thread

section Lemmas

variable {c next : CondVar τ} {thread : τ} {pick : Option τ} {work : Nat}

theorem wake_some (h : c.wake thread = some next) :
    thread ∈ c.asleep ∧ next = { asleep := c.asleep.erase thread, woken := c.woken ++ [thread] } := by
  unfold wake at h
  split at h
  · exact ⟨‹_›, (Option.some.inj h).symm⟩
  · cases h

theorem resume_some (h : c.resume thread = some next) :
    thread ∈ c.woken ∧ next = { c with woken := c.woken.erase thread } := by
  unfold resume at h
  split at h
  · exact ⟨‹_›, (Option.some.inj h).symm⟩
  · cases h

theorem leave_some (h : c.leave thread = some next) :
    thread ∈ c.asleep ∧ next = { c with asleep := c.asleep.erase thread } := by
  unfold leave at h
  split at h
  · exact ⟨‹_›, (Option.some.inj h).symm⟩
  · cases h

theorem signal_cases (h : c.signal pick = some next) :
    c.asleep = [] ∧ next = c ∨ ∃ thread, c.wake thread = some next := by
  cases pick with
  | none =>
      simp only [signal, Option.ite_none_right_eq_some, Option.some.injEq] at h
      exact .inl ⟨h.1, h.2.symm⟩
  | some thread => exact .inr ⟨thread, h⟩

-- A signal can always be given.
theorem exists_signal (c : CondVar τ) : ∃ pick next, c.signal pick = some next := by
  cases hc : c.asleep with
  | nil => exact ⟨none, c, by simp [signal, hc]⟩
  | cons thread rest => exact ⟨some thread, _, by simp only [signal, wake, hc, List.mem_cons_self, if_true]; rfl⟩

theorem exists_resume (h : thread ∈ c.woken) : ∃ next, c.resume thread = some next :=
  ⟨_, if_pos h⟩

theorem Covers.wake (h : c.Covers work) (hwake : c.wake thread = some next) : next.Covers (work + 1) := by
  obtain ⟨hmem, rfl⟩ := wake_some hwake
  intro _
  have := h (List.ne_nil_of_mem hmem)
  simpa using this

theorem Covers.signal (h : c.Covers work) (hsignal : c.signal pick = some next) : next.Covers (work + 1) := by
  rcases signal_cases hsignal with ⟨hnil, rfl⟩ | ⟨thread, hwake⟩
  · exact fun hne => absurd hnil hne
  · exact h.wake hwake

-- The thread that runs takes over one piece of work.
theorem Covers.resume (h : c.Covers work) (hresume : c.resume thread = some next) : next.Covers (work - 1) := by
  obtain ⟨hmem, rfl⟩ := resume_some hresume
  intro hne
  have hle := h hne
  simp only [List.length_erase_of_mem hmem]
  omega

theorem wake_threads (h : c.wake thread = some next) : next.threads.Perm c.threads := by
  obtain ⟨hmem, rfl⟩ := wake_some h
  have hlast : (c.asleep.erase thread ++ c.woken ++ [thread]).Perm (thread :: c.asleep.erase thread ++ c.woken) :=
    List.perm_append_singleton _ _
  have hfirst : (thread :: c.asleep.erase thread ++ c.woken).Perm (c.asleep ++ c.woken) :=
    (List.perm_cons_erase hmem).symm.append_right _
  rw [threads, ← List.append_assoc]
  exact hlast.trans hfirst

theorem signal_threads (h : c.signal pick = some next) : next.threads.Perm c.threads := by
  rcases signal_cases h with ⟨-, rfl⟩ | ⟨thread, hwake⟩
  · exact .refl _
  · exact wake_threads hwake

theorem resume_threads (h : c.resume thread = some next) : c.threads.Perm (thread :: next.threads) := by
  obtain ⟨hmem, rfl⟩ := resume_some h
  exact ((List.perm_cons_erase hmem).append_left _).trans List.perm_middle

theorem leave_threads (h : c.leave thread = some next) : c.threads.Perm (thread :: next.threads) := by
  obtain ⟨hmem, rfl⟩ := leave_some h
  exact (List.perm_cons_erase hmem).append_right _

theorem back_cases (h : c.back thread = some next) : c.resume thread = some next ∨ c.leave thread = some next := by
  unfold back at h
  split at h
  · exact .inl h
  · exact .inr h

theorem back_threads (h : c.back thread = some next) : c.threads.Perm (thread :: next.threads) := by
  rcases back_cases h with hresume | hleave
  · exact resume_threads hresume
  · exact leave_threads hleave

theorem back_asleep_subset (h : c.back thread = some next) : next.asleep ⊆ c.asleep := by
  rcases back_cases h with hresume | hleave
  · obtain ⟨-, rfl⟩ := resume_some hresume
    exact List.Subset.refl _
  · obtain ⟨-, rfl⟩ := leave_some hleave
    exact List.erase_subset

-- A signal to a single thread leaves none asleep.
theorem signal_asleep (h : c.signal pick = some next) (halone : c.threads.length ≤ 1) : next.asleep = [] := by
  rcases signal_cases h with ⟨hnil, rfl⟩ | ⟨thread, hwake⟩
  · exact hnil
  · obtain ⟨hmem, rfl⟩ := wake_some hwake
    have hlength := List.length_erase_add_one hmem
    simp only [threads, List.length_append] at halone
    have hzero : (c.asleep.erase thread).length = 0 := by omega
    exact List.eq_nil_of_length_eq_zero hzero

theorem resume_woken_subset (h : c.resume thread = some next) : next.woken ⊆ c.woken := by
  obtain ⟨-, rfl⟩ := resume_some h
  exact List.erase_subset

theorem leave_asleep_subset (h : c.leave thread = some next) : next.asleep ⊆ c.asleep ∧ next.woken = c.woken := by
  obtain ⟨-, rfl⟩ := leave_some h
  exact ⟨List.erase_subset, rfl⟩

theorem signal_woken_le (h : c.signal pick = some next) : next.woken.length ≤ c.woken.length + 1 := by
  rcases signal_cases h with ⟨-, rfl⟩ | ⟨thread, hwake⟩
  · exact Nat.le_succ _
  · obtain ⟨-, rfl⟩ := wake_some hwake
    simp

theorem resume_woken (h : c.resume thread = some next) : next.woken.length + 1 = c.woken.length := by
  obtain ⟨hmem, rfl⟩ := resume_some h
  exact List.length_erase_add_one hmem

end Lemmas

end CondVar

end CseLabs
