import CseLabs.Run
import Mathlib.Tactic

namespace CseLabs.Rpc

-- struct timespec, with a time_t and a long of 64 bits
@[ext] structure Timespec where
  tvSec : Int64
  tvNsec : Int64
  deriving DecidableEq

-- What pthread_cond_timedwait accepts.
def Timespec.Valid (t : Timespec) : Prop := 0 ≤ t.tvNsec.toInt ∧ t.tvNsec.toInt < 1000000000

instance (t : Timespec) : Decidable t.Valid := inferInstanceAs (Decidable (_ ∧ _))

-- The instant it denotes.
def Timespec.nanos (t : Timespec) : Int := t.tvSec.toInt * 1000000000 + t.tvNsec.toInt

def cmpTimespec (a b : Timespec) : Int :=
  if a.tvSec > b.tvSec then 1
  else if a.tvSec < b.tvSec then -1
  else if a.tvNsec > b.tvNsec then 1
  else if a.tvNsec < b.tvNsec then -1
  else 0

theorem toInt_sub_second {nsec : Int64} (h : nsec > 1000000000) :
    (nsec - 1000000000).toInt = nsec.toInt - 1000000000 := by
  have hlt : (1000000000 : Int64).toInt < nsec.toInt := Int64.lt_iff_toInt_lt.mp h
  have hmax := nsec.toInt_lt
  have hsecond : (1000000000 : Int64).toInt = 1000000000 := by decide
  rw [Int64.toInt_sub, hsecond]
  exact Int.bmod_eq_of_le_mul_two (by omega) (by omega)

-- The while loop of add_timespec
def carry (result : Timespec) : Timespec :=
  if result.tvNsec > 1000000000 then carry ⟨result.tvSec + 1, result.tvNsec - 1000000000⟩ else result
termination_by result.tvNsec.toInt.toNat
decreasing_by
  next h =>
    have hlt : (1000000000 : Int64).toInt < result.tvNsec.toInt := Int64.lt_iff_toInt_lt.mp h
    have hsecond : (1000000000 : Int64).toInt = 1000000000 := by decide
    have hsub := toInt_sub_second h
    omega

-- The milliseconds are an int. none: the VERIFY fails.
def addTimespec (a : Timespec) (b : Int32) : Option Timespec :=
  let tvSec := a.tvSec + (b / 1000).toInt64
  let tvNsec := a.tvNsec + (b % 1000 * 1000000).toInt64
  if tvNsec ≥ 0 then some (carry ⟨tvSec, tvNsec⟩) else none

section Arithmetic

-- The nanoseconds before the loop.
def nsecSum (a : Timespec) (b : Int32) : Int := a.tvNsec.toInt + b.toInt.tmod 1000 * 1000000

theorem toInt_nsec {a : Timespec} (ha : a.Valid) (b : Int32) :
    (a.tvNsec + (b % 1000 * 1000000).toInt64).toInt = nsecSum a b := by
  have hthousand : (1000 : Int32).toInt = 1000 := by decide
  have hmillion : (1000000 : Int32).toInt = 1000000 := by decide
  have hlo := Int.tmod_lt_of_pos b.toInt (show (0 : Int) < 1000 by decide)
  have hhi := Int.lt_tmod_of_pos b.toInt (show (0 : Int) < 1000 by decide)
  obtain ⟨hnonneg, hlt⟩ := ha
  rw [Int64.toInt_add, Int32.toInt_toInt64, Int32.toInt_mul, Int32.toInt_mod, hthousand, hmillion]
  rw [Int.bmod_eq_of_le_mul_two (x := b.toInt.tmod 1000 * 1000000) (by omega) (by omega)]
  exact Int.bmod_eq_of_le_mul_two (by omega) (by omega)

theorem nsecSum_lt {a : Timespec} (ha : a.Valid) (b : Int32) : nsecSum a b < 2000000000 := by
  have hlt := Int.tmod_lt_of_pos b.toInt (show (0 : Int) < 1000 by decide)
  have hnsec := ha.2
  unfold nsecSum
  omega

-- At most one second is carried. A sum of exactly one second is not.
theorem addTimespec_cases {a : Timespec} (ha : a.Valid) (b : Int32) :
    nsecSum a b < 0 ∧ addTimespec a b = none ∨
      ∃ result, addTimespec a b = some result ∧
        (0 ≤ nsecSum a b ∧ nsecSum a b ≤ 1000000000 ∧ result.tvNsec.toInt = nsecSum a b ∧
            result.tvSec = a.tvSec + (b / 1000).toInt64 ∨
          1000000000 < nsecSum a b ∧ result.tvNsec.toInt = nsecSum a b - 1000000000 ∧
            result.tvSec = a.tvSec + (b / 1000).toInt64 + 1) := by
  have hsum := toInt_nsec ha b
  have hzero : (0 : Int64).toInt = 0 := by decide
  have hsecond : (1000000000 : Int64).toInt = 1000000000 := by decide
  have hhi := nsecSum_lt ha b
  unfold addTimespec
  by_cases hneg : nsecSum a b < 0
  · refine .inl ⟨hneg, if_neg ?_⟩
    rw [ge_iff_le, Int64.le_iff_toInt_le, hsum, hzero]
    omega
  · right
    have hverify : a.tvNsec + (b % 1000 * 1000000).toInt64 ≥ 0 := by
      rw [ge_iff_le, Int64.le_iff_toInt_le, hsum, hzero]
      omega
    refine ⟨_, if_pos hverify, ?_⟩
    rw [carry]
    by_cases hcarry : nsecSum a b ≤ 1000000000
    · have hdone : ¬ a.tvNsec + (b % 1000 * 1000000).toInt64 > 1000000000 := by
        rw [gt_iff_lt, Int64.lt_iff_toInt_lt, hsum, hsecond]
        omega
      rw [if_neg hdone]
      exact .inl ⟨by omega, hcarry, hsum, rfl⟩
    · have hmore : a.tvNsec + (b % 1000 * 1000000).toInt64 > 1000000000 := by
        rw [gt_iff_lt, Int64.lt_iff_toInt_lt, hsum, hsecond]
        omega
      have hsub := toInt_sub_second hmore
      rw [hsum] at hsub
      have hdone : ¬ a.tvNsec + (b % 1000 * 1000000).toInt64 - 1000000000 > 1000000000 := by
        rw [gt_iff_lt, Int64.lt_iff_toInt_lt, hsub, hsecond]
        omega
      rw [if_pos hmore, carry, if_neg hdone]
      exact .inr ⟨by omega, hsub, rfl⟩

theorem addTimespec_some {a result : Timespec} {b : Int32} (ha : a.Valid) (h : addTimespec a b = some result) :
    0 ≤ nsecSum a b ∧ nsecSum a b ≤ 1000000000 ∧ result.tvNsec.toInt = nsecSum a b ∧
        result.tvSec = a.tvSec + (b / 1000).toInt64 ∨
      1000000000 < nsecSum a b ∧ result.tvNsec.toInt = nsecSum a b - 1000000000 ∧
        result.tvSec = a.tvSec + (b / 1000).toInt64 + 1 := by
  rcases addTimespec_cases ha b with ⟨-, hnone⟩ | ⟨sum, hsum, hcases⟩
  · rw [hnone] at h
    cases h
  · rw [hsum] at h
    cases h
    exact hcases

theorem addTimespec_valid {a result : Timespec} {b : Int32} (ha : a.Valid) (h : addTimespec a b = some result) :
    result.Valid ↔ nsecSum a b ≠ 1000000000 := by
  have hhi := nsecSum_lt ha b
  unfold Timespec.Valid
  rcases addTimespec_some ha h with ⟨hlo, hle, hnsec, -⟩ | ⟨hlt, hnsec, -⟩
  · omega
  · omega

-- The seconds do not wrap around when the sum is an instant that a timespec denotes.
theorem addTimespec_nanos {a result : Timespec} {b : Int32} (ha : a.Valid) (hb : 0 ≤ b.toInt)
    (hfits : a.nanos + b.toInt * 1000000 < 2 ^ 63 * 1000000000) (h : addTimespec a b = some result) :
    result.nanos = a.nanos + b.toInt * 1000000 := by
  have hthousand : (1000 : Int32).toInt = 1000 := by decide
  have hone : (1 : Int64).toInt = 1 := by decide
  have hsec := a.tvSec.le_toInt
  have hmax := b.toInt_lt
  have hdiv : b.toInt.tdiv 1000 = b.toInt / 1000 := Int.tdiv_eq_ediv_of_nonneg hb
  have hmod : b.toInt.tmod 1000 = b.toInt % 1000 := Int.tmod_eq_emod_of_nonneg hb
  have hquotient : (b / 1000).toInt64.toInt = b.toInt / 1000 := by
    rw [Int32.toInt_toInt64, Int32.toInt_div, hthousand, hdiv]
    exact Int.bmod_eq_of_le_mul_two (by omega) (by omega)
  have hvalid := ha
  unfold Timespec.Valid at hvalid
  unfold Timespec.nanos at hfits ⊢
  have hsum : nsecSum a b = a.tvNsec.toInt + b.toInt % 1000 * 1000000 := by rw [nsecSum, hmod]
  have hseconds : (a.tvSec + (b / 1000).toInt64).toInt = a.tvSec.toInt + b.toInt / 1000 := by
    rw [Int64.toInt_add, hquotient]
    exact Int.bmod_eq_of_le_mul_two (by omega) (by omega)
  rcases addTimespec_some ha h with ⟨-, hle, hnsec, hsecs⟩ | ⟨hlt, hnsec, hsecs⟩
  · rw [hsecs, hseconds, hnsec, hsum]
    omega
  · have hnext : (a.tvSec + (b / 1000).toInt64 + 1).toInt = a.tvSec.toInt + b.toInt / 1000 + 1 := by
      rw [Int64.toInt_add, hseconds, hone]
      exact Int.bmod_eq_of_le_mul_two (by omega) (by omega)
    rw [hsecs, hnext, hnsec, hsum]
    omega

theorem nanos_lt {t : Timespec} (h : t.Valid) : t.nanos < 2 ^ 63 * 1000000000 := by
  have hsec := t.tvSec.toInt_lt
  have hnsec := h.2
  unfold Timespec.nanos
  omega

-- Valid timespecs are compared as the instants they denote.
theorem cmpTimespec_eq_sign {a b : Timespec} (ha : a.Valid) (hb : b.Valid) :
    cmpTimespec a b = (a.nanos - b.nanos).sign := by
  have hsign : ∀ d : Int, 0 < d ∧ d.sign = 1 ∨ d < 0 ∧ d.sign = -1 ∨ d = 0 ∧ d.sign = 0 := by
    intro d
    rcases lt_trichotomy d 0 with hlt | rfl | hlt
    · exact .inr (.inl ⟨hlt, Int.sign_eq_neg_one_of_neg hlt⟩)
    · exact .inr (.inr ⟨rfl, rfl⟩)
    · exact .inl ⟨hlt, Int.sign_eq_one_of_pos hlt⟩
  have hd := hsign (a.nanos - b.nanos)
  unfold Timespec.Valid at ha hb
  unfold Timespec.nanos at hd ⊢
  simp only [cmpTimespec, gt_iff_lt, Int64.lt_iff_toInt_lt]
  split_ifs <;> omega

end Arithmetic

section Deadlines

def TO_MIN : Int32 := 1000

-- The waiting loop of call1: the timeout that it doubles, and the deadlines with which it has
-- called pthread_cond_timedwait.
structure Wait where
  finaldeadline : Timespec
  currTo : Int32
  waited : List Timespec

-- A round in which the clock shows now, without a reply.
def waitRound (wait : Wait) (now : Timespec) : Option Wait :=
  if wait.finaldeadline.tvSec = 0 then none
  else do
    let nextdeadline ← addTimespec now wait.currTo
    if cmpTimespec nextdeadline wait.finaldeadline > 0 then
      some { finaldeadline := { wait.finaldeadline with tvSec := 0 }
             currTo := wait.currTo <<< 1, waited := wait.waited ++ [wait.finaldeadline] }
    else some { wait with currTo := wait.currTo <<< 1, waited := wait.waited ++ [nextdeadline] }

-- The loop is entered, for a call with the given timeout.
def waitStart (now : Timespec) (timeout : Int32) : Option Wait := do
  let finaldeadline ← addTimespec now timeout
  some { finaldeadline := finaldeadline, currTo := TO_MIN, waited := [] }

-- The clock shows a proper time, and the sum with the timeout is not exactly one second.
def Apart (wait : Wait) (now : Timespec) : Prop := now.Valid ∧ nsecSum now wait.currTo ≠ 1000000000

theorem waitRound_valid {wait next : Wait} {now : Timespec} (hapart : Apart wait now)
    (hfinal : wait.finaldeadline.Valid) (hwaited : ∀ deadline ∈ wait.waited, deadline.Valid)
    (h : waitRound wait now = some next) :
    next.finaldeadline.Valid ∧ ∀ deadline ∈ next.waited, deadline.Valid := by
  have hlast : ∀ last : Timespec, last.Valid → ∀ deadline ∈ wait.waited ++ [last], deadline.Valid := by
    intro last hvalid deadline hmem
    rcases List.mem_append.mp hmem with hold | hnew
    · exact hwaited deadline hold
    · rw [List.mem_singleton.mp hnew]
      exact hvalid
  unfold waitRound at h
  split at h
  · cases h
  · simp only [Option.bind_eq_bind, Option.bind_eq_some_iff] at h
    obtain ⟨nextdeadline, hnext, h⟩ := h
    have hvalid := (addTimespec_valid hapart.1 hnext).mpr hapart.2
    split at h
    · cases h
      exact ⟨hfinal, hlast _ hfinal⟩
    · cases h
      exact ⟨hfinal, hlast _ hvalid⟩

theorem waited_valid {now : Timespec} {timeout : Int32} {wait : Wait} (hnow : now.Valid)
    (hsum : nsecSum now timeout ≠ 1000000000)
    (hr : Reachable (Guarded Apart fun wait now next => waitRound wait now = some next)
      (fun wait => waitStart now timeout = some wait) wait) :
    ∀ deadline ∈ wait.waited, deadline.Valid := by
  have hinv : wait.finaldeadline.Valid ∧ ∀ deadline ∈ wait.waited, deadline.Valid := by
    refine hr.invariant (fun wait => wait.finaldeadline.Valid ∧ ∀ deadline ∈ wait.waited, deadline.Valid) ?_ ?_
    · intro first hfirst
      simp only [waitStart, Option.bind_eq_bind, Option.bind_eq_some_iff, Option.some.injEq] at hfirst
      obtain ⟨finaldeadline, hadd, rfl⟩ := hfirst
      exact ⟨(addTimespec_valid hnow hadd).mpr hsum, by simp⟩
    · rintro wait now next ⟨hfinal, hwaited⟩ ⟨hapart, h⟩
      exact waitRound_valid hapart hfinal hwaited h
  exact hinv.2

end Deadlines

-- The sum of the nanoseconds is not exactly one second, and the instant is one that a timespec
-- can denote.
def Clean (a : Timespec) (b : Int32) : Prop :=
  nsecSum a b ≠ 1000000000 ∧ a.nanos + b.toInt * 1000000 < 2 ^ 63 * 1000000000

instance (a : Timespec) (b : Int32) : Decidable (Clean a b) := inferInstanceAs (Decidable (_ ∧ _))

-- What add_timespec should give.
def IsSum (a : Timespec) (b : Int32) (result : Timespec) : Prop :=
  addTimespec a b = some result ∧ result.Valid ∧ result.nanos = a.nanos + b.toInt * 1000000

theorem sum_iff {a : Timespec} {b : Int32} (ha : a.Valid) (hb : 0 ≤ b.toInt) :
    (∃ result, IsSum a b result) ↔ Clean a b := by
  constructor
  · rintro ⟨result, hadd, hvalid, hnanos⟩
    exact ⟨(addTimespec_valid ha hadd).mp hvalid, hnanos ▸ nanos_lt hvalid⟩
  · rintro ⟨hsum, hfits⟩
    rcases addTimespec_cases ha b with ⟨hneg, -⟩ | ⟨result, hadd, -⟩
    · have hmod := Int.tmod_nonneg 1000 hb
      have hnsec := ha.1
      unfold nsecSum at hneg
      omega
    · exact ⟨result, hadd, (addTimespec_valid ha hadd).mpr hsum, addTimespec_nanos ha hb hfits hadd⟩

-- A deadline is right exactly when the sum is not a whole second. Then it is compared with the
-- others as an instant, and a call with that timeout waits with valid deadlines only.
theorem deadline_iff_clean (a : Timespec) (b : Int32) (ha : a.Valid) (hb : 0 ≤ b.toInt) :
    ((∃ result, IsSum a b result) ↔ Clean a b) ∧
      (∀ result a' b' result', IsSum a b result → IsSum a' b' result' →
        cmpTimespec result result' = ((a.nanos + b.toInt * 1000000) - (a'.nanos + b'.toInt * 1000000)).sign) ∧
      (nsecSum a b ≠ 1000000000 → ∀ wait,
        Reachable (Guarded Apart fun wait now next => waitRound wait now = some next)
          (fun wait => waitStart a b = some wait) wait →
        ∀ deadline ∈ wait.waited, deadline.Valid) := by
  refine ⟨sum_iff ha hb, ?_, fun hsum wait hr => waited_valid ha hsum hr⟩
  rintro result a' b' result' ⟨-, hvalid, hnanos⟩ ⟨-, hvalid', hnanos'⟩
  rw [cmpTimespec_eq_sign hvalid hvalid', hnanos, hnanos']

theorem deadline_iff_clean_carry : ∃ result, IsSum ⟨5, 999000000⟩ 2 result ∧ result.nanos = 6001000000 := by
  obtain ⟨result, hsum⟩ := (deadline_iff_clean ⟨5, 999000000⟩ 2 (by decide) (by decide)).1.mpr (by decide)
  exact ⟨result, hsum, hsum.2.2⟩

-- 1 ms after 5.999 s, and a call with that timeout whose first round waits for it.
theorem whole_second_not_carried :
    addTimespec ⟨5, 999000000⟩ 1 = some ⟨5, 1000000000⟩ ∧ ¬ (⟨5, 1000000000⟩ : Timespec).Valid ∧
      ∃ wait, Reachable (fun wait now next => waitRound wait now = some next)
          (fun wait => waitStart ⟨5, 999000000⟩ 1 = some wait) wait ∧
        wait.waited = [⟨5, 1000000000⟩] := by
  have hadd : addTimespec ⟨5, 999000000⟩ 1 = some ⟨5, 1000000000⟩ := by
    unfold addTimespec
    rw [if_pos (by decide), carry, if_neg (by decide)]
    decide
  have hnext : addTimespec ⟨5, 999500000⟩ TO_MIN = some ⟨6, 999500000⟩ := by
    unfold addTimespec
    rw [if_pos (by decide), carry, if_neg (by decide)]
    decide
  let entered : Wait := { finaldeadline := ⟨5, 1000000000⟩, currTo := TO_MIN, waited := [] }
  let next : Wait := { finaldeadline := ⟨0, 1000000000⟩, currTo := TO_MIN <<< 1, waited := [⟨5, 1000000000⟩] }
  have hstart : waitStart ⟨5, 999000000⟩ 1 = some entered := by
    rw [waitStart, hadd]
    rfl
  have hround : waitRound entered ⟨5, 999500000⟩ = some next := by
    rw [waitRound, if_neg (by decide)]
    simp only [entered, hnext, Option.bind_eq_bind, Option.bind_some]
    rw [if_pos (by decide)]
    rfl
  have hreached : Reachable (fun wait now next => waitRound wait now = some next)
      (fun wait => waitStart ⟨5, 999000000⟩ 1 = some wait) entered := .start hstart
  exact ⟨hadd, by decide, next, hreached.extend hround, rfl⟩

end CseLabs.Rpc
