import Mathlib.Data.Fintype.EquivFin
import Mathlib.Tactic

namespace CseLabs

variable {α β : Type*}

-- A deterministic system that takes one step after the other until it stops.
def iterate (next : α → Option α) (start : α) : Nat → Option α
  | 0 => some start
  | n + 1 => (iterate next start n).bind next

variable {next : α → Option α} {start state : α} {m n : Nat}

theorem iterate_add (next : α → Option α) (start : α) (m n : Nat) :
    iterate next start (m + n) = (iterate next start m).bind fun mid => iterate next mid n := by
  induction n with
  | zero => simp [iterate]
  | succ n ih =>
      rw [← Nat.add_assoc, iterate, ih, Option.bind_assoc]
      rfl

-- A system that runs for some time has run for every shorter time.
theorem exists_iterate_of_le (hmn : m ≤ n) (h : iterate next start n = some state) :
    ∃ mid, iterate next start m = some mid := by
  obtain ⟨rest, rfl⟩ := Nat.exists_eq_add_of_le hmn
  rw [iterate_add] at h
  obtain ⟨mid, hmid, -⟩ := Option.bind_eq_some_iff.mp h
  exact ⟨mid, hmid⟩

theorem le_of_stopped {other : α} (hn : iterate next start n = some state) (hstop : next state = none)
    (hm : iterate next start m = some other) : m ≤ n := by
  by_contra hlt
  obtain ⟨after, hafter⟩ := exists_iterate_of_le (Nat.succ_le_of_lt (Nat.lt_of_not_le hlt)) hm
  rw [iterate, hn, Option.bind_some, hstop] at hafter
  cases hafter

-- Once back in a state, it goes round for ever.
theorem iterate_ne_none (hmn : m < n) (hm : iterate next start m = some state)
    (hn : iterate next start n = some state) (k : Nat) : iterate next start k ≠ none := by
  induction k using Nat.strong_induction_on with
  | _ k ih =>
      by_cases hk : k ≤ n
      · obtain ⟨mid, hmid⟩ := exists_iterate_of_le hk hn
        simp [hmid]
      · obtain ⟨rest, rfl⟩ := Nat.exists_eq_add_of_le (Nat.le_of_not_le hk)
        have hback := ih (m + rest) (by omega)
        rw [iterate_add, hm] at hback
        rw [iterate_add, hn]
        exact hback

-- A system with finitely many states stops exactly when it comes back to none of them.
theorem stops_iff [Finite α] (next : α → Option α) (start : α) :
    (∃ n, iterate next start n = none) ↔
      ∀ m n state, m < n → iterate next start m = some state → iterate next start n ≠ some state := by
  constructor
  · rintro ⟨k, hk⟩ m n state hmn hm hn
    exact iterate_ne_none hmn hm hn k hk
  · intro hfresh
    by_contra hrun
    have hstate : ∀ n, ∃ state, iterate next start n = some state := fun n =>
      Option.ne_none_iff_exists'.mp fun hnone => hrun ⟨n, hnone⟩
    choose states hstates using hstate
    refine not_injective_infinite_finite states fun m n heq => ?_
    rcases lt_trichotomy m n with hmn | hmn | hmn
    · exact absurd (heq ▸ hstates n) (hfresh m n (states m) hmn (hstates m))
    · exact hmn
    · exact absurd (heq ▸ hstates m) (hfresh n m (states n) hmn (hstates n))

-- A step that depends on a part of the state only.
theorem iterate_map {step : β → Option β} {part : β → α} {inv : β → Prop} {first : β} (hfirst : inv first)
    (hstep : ∀ state next, inv state → step state = some next → inv next)
    (hpart : ∀ state, inv state → (step state).map part = next (part state)) (n : Nat) :
    (iterate step first n).map part = iterate next (part first) n ∧
      ∀ state, iterate step first n = some state → inv state := by
  induction n with
  | zero =>
      refine ⟨rfl, ?_⟩
      rintro state ⟨⟩
      exact hfirst
  | succ n ih =>
      obtain ⟨hmap, hinv⟩ := ih
      constructor
      · rw [iterate, iterate, ← hmap]
        cases hrun : iterate step first n with
        | none => rfl
        | some state => exact hpart state (hinv state hrun)
      · intro after hafter
        obtain ⟨state, hrun, hmove⟩ := Option.bind_eq_some_iff.mp hafter
        exact hstep state after (hinv state hrun) hmove

end CseLabs
