import CseLabs.Directory
import CseLabs.Iteration
import Mathlib.Data.FinEnum

namespace CseLabs.Directory

open InodeManager (Bytes)

section Positions

def npos : Nat := 2 ^ 64 - 1

-- std::string::find with its size_t
def findPos (buf : Bytes) (ch : UInt8) (pos : Nat) : Nat := (find buf ch pos).getD npos

-- A size_t that becomes an int, and an int that becomes a size_t
def toInt (size : Nat) : Int32 := Int32.ofNat size

def toSize (i : Int32) : Nat := (i.toInt % 2 ^ 64).toNat

-- std::string::substr throws for a position behind the end.
def substrPos (buf : Bytes) (pos count : Nat) : Option Bytes :=
  if pos ≤ buf.length then some (substr buf pos count) else none

end Positions

section Loop

-- The variables of readdir at the head of its loop.
structure Scan where
  nmStart : Int32
  nmEnd : Int32
  list : List Found

-- One round. none: the loop is left, at its condition or because substr throws. An int that
-- overflows wraps around.
def turn (buf : Bytes) (s : Scan) : Option Scan :=
  if toSize s.nmEnd = npos then none
  else do
    let name ← substrPos buf (toSize s.nmStart) (toSize (s.nmEnd - s.nmStart))
    let inumStart := s.nmEnd + 1
    let inumEnd := toInt (findPos buf SLASH (toSize inumStart))
    let inum ← substrPos buf (toSize inumStart) (toSize (inumEnd - inumStart))
    let nmStart := inumEnd + 1
    some { nmStart := nmStart, nmEnd := toInt (findPos buf COLON (toSize nmStart))
           list := s.list ++ [(name, n2i inum)] }

-- Where the loop is entered.
def enter (buf : Bytes) : Scan := { nmStart := 0, nmEnd := toInt (findPos buf COLON 0), list := [] }

-- The loop is left, with the entries it has then.
def Leaves (buf : Bytes) (list : List Found) : Prop :=
  ∃ n s, iterate (turn buf) (enter buf) n = some s ∧ turn buf s = none ∧ s.list = list

end Loop

section Rounds

variable {buf : Bytes} {s next : Scan}

-- The next round starts behind the slash that follows the colon of this one.
def after (buf : Bytes) (nmEnd : Int32) : Int32 := toInt (findPos buf SLASH (toSize (nmEnd + 1))) + 1

theorem turn_cases (h : turn buf s = some next) :
    toSize s.nmEnd ≠ npos ∧ next.nmStart = after buf s.nmEnd ∧
      next.nmEnd = toInt (findPos buf COLON (toSize next.nmStart)) ∧ next.list.length = s.list.length + 1 := by
  unfold turn at h
  split at h
  · cases h
  · next hpos =>
      simp only [Option.bind_eq_bind, Option.bind_eq_some_iff, Option.some.injEq] at h
      obtain ⟨name, -, inum, -, rfl⟩ := h
      exact ⟨hpos, rfl, rfl, by simp⟩

-- nm_end is the colon that was searched for from nm_start on.
def Searched (buf : Bytes) (s : Scan) : Prop := s.nmEnd = toInt (findPos buf COLON (toSize s.nmStart))

-- The start of the next round, which the entries do not matter for.
def nextStart (buf : Bytes) (nmStart : Int32) : Option Int32 :=
  (turn buf ⟨nmStart, toInt (findPos buf COLON (toSize nmStart)), []⟩).map Scan.nmStart

theorem turn_start (h : Searched buf s) : (turn buf s).map Scan.nmStart = nextStart buf s.nmStart := by
  have hlist : ∀ list, (turn buf ⟨s.nmStart, s.nmEnd, list⟩).map Scan.nmStart =
      (turn buf ⟨s.nmStart, s.nmEnd, []⟩).map Scan.nmStart := by
    intro list
    simp only [turn]
    split
    · rfl
    · cases substrPos buf (toSize s.nmStart) (toSize (s.nmEnd - s.nmStart)) with
      | none => rfl
      | some name =>
          cases substrPos buf (toSize (s.nmEnd + 1))
              (toSize (toInt (findPos buf SLASH (toSize (s.nmEnd + 1))) - (s.nmEnd + 1))) with
          | none => rfl
          | some inum => rfl
  rw [nextStart, ← h]
  exact hlist s.list

theorem searched_of_turn (h : turn buf s = some next) : Searched buf next := (turn_cases h).2.2.1

-- The starts of the rounds, and the entries there are then.
theorem iterate_turn (buf : Bytes) (n : Nat) :
    (iterate (turn buf) (enter buf) n).map Scan.nmStart = iterate (nextStart buf) 0 n ∧
      ∀ s, iterate (turn buf) (enter buf) n = some s → Searched buf s := by
  have hfirst : Searched buf (enter buf) := rfl
  exact iterate_map hfirst (fun _ _ _ h => searched_of_turn h) (fun _ h => turn_start h) n

theorem length_list {n : Nat} (h : iterate (turn buf) (enter buf) n = some s) : s.list.length = n := by
  induction n generalizing s with
  | zero =>
      cases h
      rfl
  | succ n ih =>
      obtain ⟨mid, hmid, hturn⟩ := Option.bind_eq_some_iff.mp h
      rw [(turn_cases hturn).2.2.2, ih hmid]

theorem Leaves.unique {list list' : List Found} (h : Leaves buf list) (h' : Leaves buf list') : list = list' := by
  obtain ⟨n, s, hrun, hend, rfl⟩ := h
  obtain ⟨m, s', hrun', hend', rfl⟩ := h'
  obtain rfl : n = m := Nat.le_antisymm (le_of_stopped hrun' hend' hrun) (le_of_stopped hrun hend hrun')
  rw [hrun] at hrun'
  cases hrun'
  rfl

theorem leaves_iff (buf : Bytes) : (∃ list, Leaves buf list) ↔ ∃ n, iterate (nextStart buf) 0 n = none := by
  simp only [← (iterate_turn buf _).1, Option.map_eq_none_iff]
  constructor
  · rintro ⟨list, n, s, hrun, hend, -⟩
    exact ⟨n + 1, by rw [iterate, hrun, Option.bind_some, hend]⟩
  · rintro ⟨n, hnone⟩
    induction n with
    | zero => cases hnone
    | succ n ih =>
        cases hrun : iterate (turn buf) (enter buf) n with
        | none => exact ih hrun
        | some s =>
            rw [iterate, hrun, Option.bind_some] at hnone
            exact ⟨s.list, n, s, hrun, hnone, rfl⟩

theorem find_eq_some {ch : UInt8} {pos p : Nat} : find buf ch pos = some p ↔
    pos ≤ p ∧ buf[p]? = some ch ∧ ∀ j, pos ≤ j → j < p → buf[j]? ≠ some ch := by
  simp only [find, Option.map_eq_some_iff, List.findIdx?_eq_some_iff_getElem, List.getElem_drop, beq_iff_eq]
  constructor
  · rintro ⟨i, ⟨hi, hch, hbefore⟩, rfl⟩
    rw [List.length_drop] at hi
    refine ⟨by omega, List.getElem?_eq_some_iff.mpr ⟨by omega, hch⟩, fun j hj hlt hget => ?_⟩
    obtain ⟨hlen, hget⟩ := List.getElem?_eq_some_iff.mp hget
    obtain ⟨k, rfl⟩ := Nat.exists_eq_add_of_le hj
    exact hbefore k (by omega) hget
  · rintro ⟨hle, hch, hbefore⟩
    obtain ⟨i, rfl⟩ := Nat.exists_eq_add_of_le hle
    obtain ⟨hlen, hch⟩ := List.getElem?_eq_some_iff.mp hch
    refine ⟨i, ⟨by rw [List.length_drop]; omega, hch, fun j hj hget => ?_⟩, rfl⟩
    exact hbefore (pos + j) (by omega) (by omega) (List.getElem?_eq_some_iff.mpr ⟨by omega, hget⟩)

theorem find_eq_none {ch : UInt8} {pos : Nat} : find buf ch pos = none ↔ ∀ j, pos ≤ j → buf[j]? ≠ some ch := by
  simp only [find, Option.map_eq_none_iff, List.findIdx?_eq_none_iff, beq_eq_false_iff_ne]
  constructor
  · intro hnone j hj hget
    obtain ⟨k, rfl⟩ := Nat.exists_eq_add_of_le hj
    rw [← List.getElem?_drop] at hget
    exact hnone ch (List.mem_of_getElem? hget) rfl
  · rintro hnone x hx rfl
    obtain ⟨k, hk⟩ := List.mem_iff_getElem?.mp hx
    rw [List.getElem?_drop] at hk
    exact hnone (pos + k) (by omega) hk

-- A round that is gone through has found its colon.
theorem colon_of_turn (hs : Searched buf s) (h : turn buf s = some next) :
    ∃ p, buf[p]? = some COLON ∧ s.nmEnd = toInt p := by
  cases hfind : find buf COLON (toSize s.nmStart) with
  | none =>
      have hend : s.nmEnd = toInt npos := by rw [hs, findPos, hfind, Option.getD_none]
      exact absurd (hend ▸ rfl) (turn_cases h).1
  | some p => exact ⟨p, (find_eq_some.mp hfind).2.1, by rw [hs, findPos, hfind, Option.getD_some]⟩

theorem le_count {α : Type*} [DecidableEq α] {list : List α} {x : α} {n : Nat} (place : Fin n → Nat)
    (hinj : Function.Injective place) (hplace : ∀ i, list[place i]? = some x) : n ≤ list.count x := by
  have hlt : ∀ i, place i < list.length := fun i => (List.getElem?_eq_some_iff.mp (hplace i)).1
  let vector : List.Vector α list.length := ⟨list, rfl⟩
  have hget : ∀ i, vector.get ⟨place i, hlt i⟩ = x := by
    intro i
    obtain ⟨_, hx⟩ := List.getElem?_eq_some_iff.mp (hplace i)
    rw [List.Vector.get_eq_get_toList]
    exact hx
  let index : Fin n → { k : Fin list.length // vector.get k = x } := fun i => ⟨⟨place i, hlt i⟩, hget i⟩
  have hindex : Function.Injective index := by
    intro i j heq
    exact hinj (congrArg (fun k => k.1.1) heq)
  have hcard := Fintype.card_le_of_injective index hindex
  rwa [Fintype.card_fin, Fintype.card_subtype, Fin.card_filter_univ_eq_vector_get_eq_count] at hcard

-- No round starts where an earlier one has started.
def NoReturn (buf : Bytes) : Prop :=
  ∀ m n start, m < n → iterate (nextStart buf) 0 m = some start → iterate (nextStart buf) 0 n ≠ some start

-- Then each round has a colon of its own.
theorem length_le_count (hreturn : NoReturn buf) {n : Nat} (hrun : iterate (turn buf) (enter buf) n = some s) :
    n ≤ buf.count COLON := by
  have hround : ∀ i : Fin n, ∃ p before, buf[p]? = some COLON ∧ before = toInt p ∧
      iterate (nextStart buf) 0 (i + 1) = some (after buf before) := by
    intro i
    obtain ⟨next, hnext⟩ := exists_iterate_of_le (show (i : Nat) + 1 ≤ n by omega) hrun
    obtain ⟨mid, hmid, hturn⟩ := Option.bind_eq_some_iff.mp hnext
    obtain ⟨p, hp, hend⟩ := colon_of_turn ((iterate_turn buf i).2 mid hmid) hturn
    refine ⟨p, mid.nmEnd, hp, hend, ?_⟩
    rw [← (iterate_turn buf (i + 1)).1, hnext, Option.map_some, (turn_cases hturn).2.1]
  choose place before hplace hbefore hstart using hround
  refine le_count place (fun i j heq => ?_) hplace
  have hsame : iterate (nextStart buf) 0 (i + 1) = iterate (nextStart buf) 0 (j + 1) := by
    rw [hstart i, hstart j, hbefore i, hbefore j, heq]
  rcases lt_trichotomy i j with hij | hij | hij
  · exact absurd (hsame ▸ hstart i) (hreturn (i + 1) (j + 1) _ (by omega) (hstart i))
  · exact hij
  · exact absurd (hsame.symm ▸ hstart j) (hreturn (j + 1) (i + 1) _ (by omega) (hstart j))

theorem leaves_iff_noReturn (buf : Bytes) :
    (∃ list, Leaves buf list ∧ list.length ≤ buf.count COLON) ↔ NoReturn buf := by
  have hstops := stops_iff (nextStart buf) 0
  constructor
  · rintro ⟨list, hleaves, -⟩
    exact hstops.mp ((leaves_iff buf).mp ⟨list, hleaves⟩)
  · intro hreturn
    obtain ⟨list, n, s, hrun, hend, rfl⟩ := (leaves_iff buf).mpr (hstops.mpr hreturn)
    refine ⟨s.list, ⟨n, s, hrun, hend, rfl⟩, ?_⟩
    rw [length_list hrun]
    exact length_le_count hreturn hrun

end Rounds

section Conversions

variable {p pos : Nat}

theorem toSize_toInt (hp : p < 2 ^ 31) : toSize (toInt p) = p := by
  rw [toSize, toInt, Int32.toInt_ofNat_of_lt hp]
  omega

theorem toInt_add_one (p : Nat) : toInt p + 1 = toInt (p + 1) := (Int32.ofNat_add p 1).symm

theorem toSize_sub (hpos : pos ≤ p) (hp : p < 2 ^ 31) : toSize (toInt p - toInt pos) = p - pos := by
  rw [toInt, toInt, ← Int32.ofNat_sub p pos hpos]
  exact toSize_toInt (by omega)

-- npos becomes -1, and the difference a count that no string has.
theorem toSize_npos_sub (hp : p < 2 ^ 31) : toSize (toInt npos - toInt p) = npos - p := by
  have hminus : (toInt npos).toInt = -1 := by decide
  have hsub : (toInt npos - toInt p).toInt = -1 - p := by
    rw [Int32.toInt_sub, hminus, toInt, Int32.toInt_ofNat_of_lt hp]
    exact Int.bmod_eq_of_le_mul_two (by omega) (by omega)
  rw [toSize, hsub, npos]
  omega

-- From 2^31 on a position is negative as an int, and then behind every content.
theorem le_toSize_toInt (hge : 2 ^ 31 ≤ p) (hlt : p < 2 ^ 32) : 2 ^ 32 ≤ toSize (toInt p) := by
  have hsize : ((Int32.size : Nat) : Int) = 2 ^ 32 := rfl
  have hneg : (toInt p).toInt = p - 2 ^ 32 := by
    rw [toInt, Int32.toInt_ofNat', Int.bmod_def, hsize]
    omega
  rw [toSize, hneg]
  omega

end Conversions

section Starts

variable {buf : Bytes} {start : Int32} {pos p q : Nat}

theorem lt_of_find {ch : UInt8} (h : find buf ch pos = some p) : p < buf.length :=
  (List.getElem?_eq_some_iff.mp (find_eq_some.mp h).2.1).1

theorem find_behind (ch : UInt8) (h : buf.length ≤ pos) : find buf ch pos = none := by
  rw [find_eq_none]
  intro j hj hget
  have hlt := (List.getElem?_eq_some_iff.mp hget).1
  omega

theorem nextStart_none (hcolon : find buf COLON (toSize start) = none) : nextStart buf start = none := by
  rw [nextStart, turn, findPos, hcolon]
  rfl

-- A colon so far back that inum_start is negative: substr throws, or nm_end was npos.
theorem nextStart_far (hlong : buf.length < 2 ^ 32) (hcolon : find buf COLON (toSize start) = some p)
    (hp : 2 ^ 31 ≤ p + 1) : nextStart buf start = none := by
  have hlt := lt_of_find hcolon
  have hthrow : substrPos buf (toSize (toInt p + 1)) (toSize
      (toInt (findPos buf SLASH (toSize (toInt p + 1))) - (toInt p + 1))) = none := by
    have hfar := le_toSize_toInt hp (by omega)
    rw [toInt_add_one, substrPos, if_neg (by omega)]
  simp only [nextStart, turn, findPos, hcolon, Option.getD_some]
  rw [← findPos, hthrow]
  split
  · rfl
  · cases substrPos buf (toSize start) (toSize (toInt p - start)) <;> rfl

theorem nextStart_near (hcolon : find buf COLON (toSize start) = some p) (hp : p + 1 < 2 ^ 31) :
    nextStart buf start = some (toInt (findPos buf SLASH (p + 1)) + 1) := by
  have hlt := lt_of_find hcolon
  have hle := (find_eq_some.mp hcolon).1
  have hend : ¬ toSize (toInt p) = npos := by
    rw [toSize_toInt (by omega), npos]
    omega
  simp only [nextStart, turn, findPos, hcolon, Option.getD_some]
  rw [if_neg hend, toInt_add_one, toSize_toInt hp]
  simp only [substrPos, show toSize start ≤ buf.length by omega, show p + 1 ≤ buf.length by omega, if_true,
    Option.bind_eq_bind, Option.bind_some, Option.map_some]

-- Every colon before the bound has a slash behind it.
def ClosedBelow (bound : Nat) (buf : Bytes) : Prop :=
  ∀ i < bound, buf[i]? = some COLON → ∃ j : Nat, i < j ∧ buf[j]? = some SLASH

-- No slash leads past a colon that has none behind it: the rounds start before it for ever.
theorem iterate_nextStart_open {i : Nat} (hi : i + 1 < 2 ^ 31) (hcolon : buf[i]? = some COLON)
    (hopen : ∀ j, i < j → buf[j]? ≠ some SLASH) (n : Nat) :
    ∃ pos ≤ i, iterate (nextStart buf) 0 n = some (toInt pos) := by
  induction n with
  | zero => exact ⟨0, Nat.zero_le i, rfl⟩
  | succ n ih =>
      obtain ⟨pos, hpos, hrun⟩ := ih
      have hstart : toSize (toInt pos) = pos := toSize_toInt (by omega)
      cases hfind : find buf COLON pos with
      | none => exact absurd hcolon (find_eq_none.mp hfind i hpos)
      | some p =>
          have hp : p ≤ i := by
            by_contra hlt
            exact (find_eq_some.mp hfind).2.2 i hpos (by omega) hcolon
          rw [iterate, hrun, Option.bind_some, nextStart_near (hstart.symm ▸ hfind) (by omega), findPos]
          cases hslash : find buf SLASH (p + 1) with
          | none => exact ⟨0, Nat.zero_le i, rfl⟩
          | some q =>
              have hq := (find_eq_some.mp hslash).2.1
              refine ⟨q + 1, ?_, by rw [Option.getD_some, toInt_add_one]⟩
              rcases lt_trichotomy q i with hlt | rfl | hgt
              · exact hlt
              · rw [hcolon] at hq
                exact absurd hq (by decide)
              · exact absurd hq (hopen q hgt)

-- Where the colons have their slashes each round starts further back, until one starts too far
-- back or finds no colon.
theorem exists_iterate_nextStart_none (hlong : buf.length < 2 ^ 32) (hclosed : ClosedBelow (2 ^ 31 - 1) buf)
    {left : Nat} (hleft : buf.length ≤ left + pos) (hpos : pos < 2 ^ 31) :
    ∃ n, iterate (nextStart buf) (toInt pos) n = none := by
  have hfirst : ∀ pos, nextStart buf (toInt pos) = none → ∃ n, iterate (nextStart buf) (toInt pos) n = none :=
    fun pos hnone => ⟨1, by rw [iterate, iterate, Option.bind_some, hnone]⟩
  have hstart : toSize (toInt pos) = pos := toSize_toInt hpos
  induction left generalizing pos with
  | zero => exact hfirst pos (nextStart_none (find_behind COLON (by omega)))
  | succ left ih =>
      cases hcolon : find buf COLON pos with
      | none => exact hfirst pos (nextStart_none (hstart.symm ▸ hcolon))
      | some p =>
          by_cases hp : p + 1 < 2 ^ 31
          · obtain ⟨hle, hget, -⟩ := find_eq_some.mp hcolon
            obtain ⟨j, hj, hslash⟩ := hclosed p (by omega) hget
            cases hq : find buf SLASH (p + 1) with
            | none => exact absurd hslash (find_eq_none.mp hq j hj)
            | some q =>
                have hpq := (find_eq_some.mp hq).1
                have hqlt := lt_of_find hq
                have hnext : nextStart buf (toInt pos) = some (toInt (q + 1)) := by
                  rw [nextStart_near (hstart.symm ▸ hcolon) hp, findPos, hq, Option.getD_some, toInt_add_one]
                obtain ⟨n, hn⟩ : ∃ n, iterate (nextStart buf) (toInt (q + 1)) n = none := by
                  by_cases hfar : q + 1 < 2 ^ 31
                  · exact ih (by omega) hfar (toSize_toInt hfar)
                  · have hbehind := le_toSize_toInt (Nat.le_of_not_lt hfar) (by omega)
                    exact hfirst (q + 1) (nextStart_none (find_behind COLON (by omega)))
                refine ⟨1 + n, ?_⟩
                rw [iterate_add, iterate, iterate, Option.bind_some, hnext]
                exact hn
          · exact hfirst pos (nextStart_far hlong (hstart.symm ▸ hcolon) (Nat.le_of_not_lt hp))

theorem noReturn_iff_closedBelow (hlong : buf.length < 2 ^ 32) : NoReturn buf ↔ ClosedBelow (2 ^ 31 - 1) buf := by
  have hstops : (∃ n, iterate (nextStart buf) 0 n = none) ↔ NoReturn buf := stops_iff (nextStart buf) 0
  rw [← hstops]
  constructor
  · rintro ⟨n, hnone⟩ i hi hcolon
    by_contra hopen
    obtain ⟨pos, -, hrun⟩ :=
      iterate_nextStart_open (by omega) hcolon (fun j hj hslash => hopen ⟨j, hj, hslash⟩) n
    rw [hrun] at hnone
    cases hnone
  · intro hclosed
    exact exists_iterate_nextStart_none hlong hclosed (Nat.le_add_right buf.length 0) (by decide)

end Starts

section Short

variable {buf : Bytes} {list more : List Found} {pos p q : Nat}

-- The head of the loop with nm_start at a position of the text.
def scanAt (buf : Bytes) (pos : Nat) (list : List Found) : Scan :=
  ⟨toInt pos, toInt (findPos buf COLON pos), list⟩

theorem turn_none (hcolon : find buf COLON pos = none) : turn buf (scanAt buf pos list) = none := by
  rw [turn, scanAt, findPos, hcolon]
  exact if_pos rfl

-- Up to the number the round is the same with and without a slash.
theorem turn_colon (hshort : buf.length < 2 ^ 31) (hcolon : find buf COLON pos = some p) (inumEnd : Int32)
    (hslash : toInt (findPos buf SLASH (p + 1)) = inumEnd) :
    turn buf (scanAt buf pos list) =
      some { nmStart := inumEnd + 1, nmEnd := toInt (findPos buf COLON (toSize (inumEnd + 1)))
             list := list ++ [(substr buf pos (p - pos),
               n2i (substr buf (p + 1) (toSize (inumEnd - toInt (p + 1)))))] } := by
  have hp := lt_of_find hcolon
  have hpos := (find_eq_some.mp hcolon).1
  have hend : ¬ toSize (toInt p) = npos := by
    rw [toSize_toInt (by omega), npos]
    omega
  simp only [turn, scanAt, findPos, hcolon, Option.getD_some]
  rw [if_neg hend, toInt_add_one, toSize_toInt (by omega), toSize_toInt (by omega), toSize_sub hpos (by omega)]
  simp only [substrPos, show pos ≤ buf.length by omega, show p + 1 ≤ buf.length by omega, if_true, Option.bind_eq_bind,
    Option.bind_some]
  rw [← findPos, hslash]

theorem turn_slash (hshort : buf.length < 2 ^ 31) (hcolon : find buf COLON pos = some p)
    (hslash : find buf SLASH (p + 1) = some q) :
    turn buf (scanAt buf pos list) = some (scanAt buf (q + 1) (list ++
      [(substr buf pos (p - pos), n2i (substr buf (p + 1) (q - (p + 1))))])) := by
  have hq := lt_of_find hslash
  have hpq := (find_eq_some.mp hslash).1
  rw [turn_colon hshort hcolon (toInt q) (by rw [findPos, hslash, Option.getD_some]), toInt_add_one,
    toSize_toInt (by omega), toSize_sub hpq (by omega)]
  rfl

theorem turn_end (hshort : buf.length < 2 ^ 31) (hcolon : find buf COLON pos = some p)
    (hslash : find buf SLASH (p + 1) = none) :
    turn buf (scanAt buf pos list) = some (scanAt buf 0 (list ++
      [(substr buf pos (p - pos), n2i (buf.drop (p + 1)))])) := by
  have hp := lt_of_find hcolon
  have hrest : substr buf (p + 1) (npos - (p + 1)) = buf.drop (p + 1) := by
    refine List.take_of_length_le ?_
    rw [List.length_drop, npos]
    omega
  rw [turn_colon hshort hcolon (toInt npos) (by rw [findPos, hslash, Option.getD_none]),
    toSize_npos_sub (by omega), hrest]
  rfl

-- The model of the loop with plain positions leaves it where this one does.
theorem leaves_of_readdirLoop (hshort : buf.length < 2 ^ 31) {fuel : Nat}
    (hloop : readdirLoop fuel buf pos = some more) : ∃ n s,
      iterate (turn buf) (scanAt buf pos list) n = some s ∧ turn buf s = none ∧ s.list = list ++ more := by
  induction fuel generalizing pos list more with
  | zero => cases hloop
  | succ fuel ih =>
      -- a round from pos, and then what the rest of the fuel gives
      have hround : ∀ pos' e more', turn buf (scanAt buf pos list) = some (scanAt buf pos' (list ++ [e])) →
          readdirLoop fuel buf pos' = some more' → ∃ n s,
            iterate (turn buf) (scanAt buf pos list) n = some s ∧ turn buf s = none ∧ s.list = list ++ e :: more' := by
        intro pos' e more' hturn hrest
        obtain ⟨n, s, hrun, hend, hlist⟩ := ih hrest
        refine ⟨1 + n, s, ?_, hend, hlist.trans (List.append_cons ..).symm⟩
        rw [iterate_add, iterate, iterate, Option.bind_some, hturn]
        exact hrun
      rw [readdirLoop] at hloop
      split at hloop
      · next hcolon =>
          cases hloop
          exact ⟨0, _, rfl, turn_none hcolon, (List.append_nil list).symm⟩
      · next p hcolon =>
          dsimp only at hloop
          split at hloop
          · next q hslash =>
              obtain ⟨more', hrest, rfl⟩ := Option.map_eq_some_iff.mp hloop
              exact hround _ _ _ (turn_slash hshort hcolon hslash) hrest
          · next hslash =>
              obtain ⟨more', hrest, rfl⟩ := Option.map_eq_some_iff.mp hloop
              exact hround _ _ _ (turn_end hshort hcolon hslash) hrest

theorem readdirLoop_of_leaves (hshort : buf.length < 2 ^ 31) {n : Nat} {s : Scan}
    (hrun : iterate (turn buf) (scanAt buf pos list) n = some s) (hend : turn buf s = none) :
    ∃ more fuel, s.list = list ++ more ∧ readdirLoop fuel buf pos = some more := by
  induction n generalizing pos list with
  | zero =>
      cases hrun
      refine ⟨[], 1, (List.append_nil list).symm, ?_⟩
      cases hcolon : find buf COLON pos with
      | none => rw [readdirLoop, hcolon]
      | some p =>
          cases hslash : find buf SLASH (p + 1) with
          | none =>
              rw [turn_end hshort hcolon hslash] at hend
              cases hend
          | some q =>
              rw [turn_slash hshort hcolon hslash] at hend
              cases hend
  | succ n ih =>
      rw [Nat.add_comm, iterate_add, iterate, iterate, Option.bind_some] at hrun
      cases hcolon : find buf COLON pos with
      | none =>
          rw [turn_none hcolon] at hrun
          cases hrun
      | some p =>
          cases hslash : find buf SLASH (p + 1) with
          | none =>
              rw [turn_end hshort hcolon hslash] at hrun
              obtain ⟨more, fuel, hlist, hloop⟩ := ih hrun
              refine ⟨_, fuel + 1, hlist.trans (List.append_cons ..).symm, ?_⟩
              simp [readdirLoop, hcolon, hslash, hloop]
          | some q =>
              rw [turn_slash hshort hcolon hslash] at hrun
              obtain ⟨more, fuel, hlist, hloop⟩ := ih hrun
              refine ⟨_, fuel + 1, hlist.trans (List.append_cons ..).symm, ?_⟩
              simp [readdirLoop, hcolon, hslash, hloop]

theorem leaves_iff_readdirLoop (hshort : buf.length < 2 ^ 31) (list : List Found) :
    Leaves buf list ↔ ∃ fuel, readdirLoop fuel buf 0 = some list := by
  constructor
  · rintro ⟨n, s, hrun, hend, rfl⟩
    obtain ⟨more, fuel, hlist, hloop⟩ : ∃ more fuel, s.list = [] ++ more ∧ readdirLoop fuel buf 0 = some more :=
      readdirLoop_of_leaves hshort hrun hend
    rw [List.nil_append] at hlist
    exact ⟨fuel, hlist ▸ hloop⟩
  · rintro ⟨fuel, hloop⟩
    exact leaves_of_readdirLoop hshort hloop

-- Every colon has a slash behind it.
def Closed (buf : Bytes) : Prop := ∀ i : Nat, buf[i]? = some COLON → ∃ j : Nat, i < j ∧ buf[j]? = some SLASH

-- Each round goes on behind a slash further back.
theorem readdirLoop_closed (hclosed : Closed buf) {fuel : Nat} (hfuel : buf.length ≤ fuel + pos) :
    ∃ more, readdirLoop (fuel + 1) buf pos = some more := by
  induction fuel generalizing pos with
  | zero =>
      exact ⟨[], by rw [readdirLoop, find_behind COLON (by omega)]⟩
  | succ fuel ih =>
      cases hcolon : find buf COLON pos with
      | none => exact ⟨[], by rw [readdirLoop, hcolon]⟩
      | some p =>
          obtain ⟨hle, hp, -⟩ := find_eq_some.mp hcolon
          obtain ⟨j, hj, hslash⟩ := hclosed p hp
          cases hq : find buf SLASH (p + 1) with
          | none => exact absurd hslash (find_eq_none.mp hq j hj)
          | some q =>
              have hpq := (find_eq_some.mp hq).1
              obtain ⟨more, hmore⟩ := ih (show buf.length ≤ fuel + (q + 1) by omega)
              rw [readdirLoop, hcolon]
              simp only [hq, hmore, Option.map_some]
              exact ⟨_, rfl⟩

-- A round that starts before the colon starts before it again: no slash leads past it.
theorem readdirLoop_open {i : Nat} (hcolon : buf[i]? = some COLON) (hopen : ∀ j, i < j → buf[j]? ≠ some SLASH)
    (fuel : Nat) (hpos : pos ≤ i) : readdirLoop fuel buf pos = none := by
  induction fuel generalizing pos with
  | zero => rfl
  | succ fuel ih =>
      cases hfind : find buf COLON pos with
      | none => exact absurd hcolon (find_eq_none.mp hfind i hpos)
      | some p =>
          rw [readdirLoop, hfind]
          dsimp only
          cases hslash : find buf SLASH (p + 1) with
          | none => simp only [ih (Nat.zero_le i), Option.map_none]
          | some q =>
              have hq := (find_eq_some.mp hslash).2.1
              have hle : q + 1 ≤ i := by
                by_contra hlt
                rcases Nat.eq_or_lt_of_le (show i ≤ q by omega) with rfl | hiq
                · rw [hcolon] at hq
                  exact absurd hq (by decide)
                · exact hopen q hiq hq
              simp only [ih hle, Option.map_none]

theorem readdirLoop_iff_closed (buf : Bytes) : (∃ list fuel, readdirLoop fuel buf 0 = some list) ↔ Closed buf := by
  constructor
  · rintro ⟨list, fuel, hloop⟩ i hcolon
    by_contra hopen
    rw [readdirLoop_open hcolon (fun j hj hslash => hopen ⟨j, hj, hslash⟩) fuel (Nat.zero_le i)] at hloop
    cases hloop
  · intro hclosed
    obtain ⟨list, hloop⟩ := readdirLoop_closed hclosed (Nat.le_add_right buf.length 0)
    exact ⟨list, _, hloop⟩

-- The fuel of readdir is enough: it gives nothing exactly when the loop does not end.
theorem readdirList_eq_some_iff (hshort : buf.length < 2 ^ 31) (list : List Found) :
    readdirList buf = some list ↔ Leaves buf list := by
  have hleaves : ∀ list, readdirList buf = some list → Leaves buf list :=
    fun list hread => (leaves_iff_readdirLoop hshort list).mpr ⟨_, hread⟩
  refine ⟨hleaves list, fun h => ?_⟩
  obtain ⟨fuel, hloop⟩ := (leaves_iff_readdirLoop hshort list).mp h
  have hclosed := (readdirLoop_iff_closed buf).mp ⟨list, fuel, hloop⟩
  obtain ⟨list', hread⟩ : ∃ list', readdirList buf = some list' :=
    readdirLoop_closed hclosed (Nat.le_add_right buf.length 0)
  rw [hread, h.unique (hleaves list' hread)]

end Short

-- The format represents a list of legal names exactly when none of them has a colon, with plain
-- positions and, for contents whose positions fit an int, with those of the code.
theorem readdir_encode_iff (entries : List Dirent) (hlegal : ∀ e ∈ entries, Legal e) :
    (readdir (encode entries) = some entries ↔ ∀ e ∈ entries, COLON ∉ e.name) ∧
      ((encode entries).length < 2 ^ 31 →
        (Leaves (encode entries) (entries.map Dirent.found) ↔ ∀ e ∈ entries, COLON ∉ e.name)) := by
  have hread := readdirList_encode_iff hlegal
  exact ⟨readdir_eq_some.trans hread, fun hshort => (readdirList_eq_some_iff hshort _).symm.trans hread⟩

theorem readdir_encode_iff_two :
    readdir (encode [⟨[97], 2⟩, ⟨[98, 99], 15⟩]) = some [⟨[97], 2⟩, ⟨[98, 99], 15⟩] ∧
      Leaves [97, 58, 50, 47, 98, 99, 58, 49, 53, 47] [([97], some 2), ([98, 99], some 15)] := by
  obtain ⟨hread, hleaves⟩ := readdir_encode_iff [⟨[97], 2⟩, ⟨[98, 99], 15⟩] (by decide)
  exact ⟨hread.mpr (by decide), (hleaves (by decide)).mpr (by decide)⟩

-- A file named a:b comes back as one named a with the number 0.
theorem name_cut_at_colon :
    Legal ⟨[97, 58, 98], 2⟩ ∧ readdir (encode [⟨[97, 58, 98], 2⟩]) = some [⟨[97], 0⟩] ∧
      Leaves (encode [⟨[97, 58, 98], 2⟩]) [([97], some 0)] := by
  have hread : readdir (encode [⟨[97, 58, 98], 2⟩]) = some [⟨[97], 0⟩] := by decide +kernel
  exact ⟨by decide, hread, (readdirList_eq_some_iff (by decide) _).mp (readdir_eq_some.mp hread)⟩

-- The loop ends, with no more entries than there are colons, exactly when no round starts where
-- an earlier one did. For contents whose positions fit an int that is: every colon has a slash
-- behind it. In longer ones, up to positions that wrap around, only the colons matter whose
-- positions fit.
theorem readdir_ends_iff (buf : Bytes) :
    ((∃ list, Leaves buf list ∧ list.length ≤ buf.count COLON) ↔ NoReturn buf) ∧
      (buf.length < 2 ^ 31 → (NoReturn buf ↔ Closed buf)) ∧
      (buf.length < 2 ^ 32 → (NoReturn buf ↔ ClosedBelow (2 ^ 31 - 1) buf)) := by
  refine ⟨leaves_iff_noReturn buf, fun hshort => ?_, noReturn_iff_closedBelow⟩
  rw [noReturn_iff_closedBelow (by omega)]
  refine ⟨fun hclosed i hcolon => hclosed i ?_ hcolon, fun hclosed i _ => hclosed i⟩
  have hlt := (List.getElem?_eq_some_iff.mp hcolon).1
  omega

theorem readdir_ends_iff_entry : ∃ list, Leaves [97, 58, 50, 47] list ∧ list.length ≤ 1 := by
  have hclosed : Closed [97, 58, 50, 47] := by
    intro i hcolon
    rcases i with _ | _ | _ | _ | i
    · exact absurd hcolon (by decide)
    · exact ⟨3, by decide, by decide⟩
    · exact absurd hcolon (by decide)
    · exact absurd hcolon (by decide)
    · simp at hcolon
  obtain ⟨hends, hshort, -⟩ := readdir_ends_iff [97, 58, 50, 47]
  exact hends.mpr ((hshort (by decide)).mpr hclosed)

-- The text a:2 ends without a slash, and the round after its entry is the first one again.
theorem readdir_never_ends : ¬ ∃ list, Leaves [97, 58, 50] list := by
  intro hleaves
  obtain ⟨n, hnone⟩ := (leaves_iff [97, 58, 50]).mp hleaves
  have hfirst : iterate (nextStart [97, 58, 50]) 0 0 = some 0 := rfl
  have hagain : iterate (nextStart [97, 58, 50]) 0 1 = some 0 := by decide
  exact iterate_ne_none (Nat.zero_lt_one) hfirst hagain n hnone

end CseLabs.Directory
