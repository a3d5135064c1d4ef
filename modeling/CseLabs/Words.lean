import Mathlib.Algebra.Group.Nat.Defs
import Mathlib.Data.Nat.Basic
import Mathlib.Logic.Function.Basic

namespace CseLabs

-- A piece of memory of a fixed length.
abbrev Block (n : Nat) := Fin n → UInt8

-- Byte j of a number stored with the low byte first.
def digit (w j : Nat) : UInt8 := UInt8.ofNat (w / 256 ^ j)

namespace Block

variable {n : Nat}

def byte (b : Block n) (p : Nat) : UInt8 := if h : p < n then b ⟨p, h⟩ else 0

-- The 16-bit number in the first two bytes.
def half (b : Block n) : UInt16 :=
  UInt16.ofNat ((b.byte 0).toNat + 256 * (b.byte 1).toNat)

-- The 32-bit number at index k.
def word (b : Block n) (k : Nat) : UInt32 :=
  UInt32.ofNat ((b.byte (4 * k)).toNat + 256 * ((b.byte (4 * k + 1)).toNat +
    256 * ((b.byte (4 * k + 2)).toNat + 256 * (b.byte (4 * k + 3)).toNat)))

def setWord (b : Block n) (k : Nat) (w : UInt32) : Block n :=
  fun p => if p.val / 4 = k then digit w.toNat (p.val % 4) else b p

theorem byte_of_lt (b : Block n) {p : Nat} (hp : p < n) : b.byte p = b ⟨p, hp⟩ :=
  dif_pos hp

theorem toNat_digit (w j : Nat) : (digit w j).toNat = w / 256 ^ j % 256 :=
  UInt8.toNat_ofNat'

theorem half_of_digits {b : Block n} {w : UInt16} (h : ∀ j < 2, b.byte j = digit w.toNat j) :
    b.half = w := by
  have hw := w.toNat_lt
  apply UInt16.toNat_inj.mp
  rw [half, h 0 (by decide), h 1 (by decide), UInt16.toNat_ofNat', toNat_digit, toNat_digit]
  omega

theorem word_of_digits {b : Block n} {k : Nat} {w : UInt32}
    (h : ∀ j < 4, b.byte (4 * k + j) = digit w.toNat j) : b.word k = w := by
  have hw := w.toNat_lt
  have h0 := h 0 (by decide)
  have h1 := h 1 (by decide)
  have h2 := h 2 (by decide)
  have h3 := h 3 (by decide)
  apply UInt32.toNat_inj.mp
  rw [Nat.add_zero] at h0
  rw [word, h0, h1, h2, h3, UInt32.toNat_ofNat', toNat_digit, toNat_digit, toNat_digit, toNat_digit]
  omega

theorem word_congr {b c : Block n} {k : Nat}
    (h : ∀ j < 4, b.byte (4 * k + j) = c.byte (4 * k + j)) : b.word k = c.word k := by
  have h0 := h 0 (by decide)
  rw [Nat.add_zero] at h0
  rw [word, word, h0, h 1 (by decide), h 2 (by decide), h 3 (by decide)]

theorem le_word (b : Block n) (k : Nat) : (b.byte (4 * k + 3)).toNat * 2 ^ 24 ≤ (b.word k).toNat := by
  have h0 := (b.byte (4 * k)).toNat_lt
  have h1 := (b.byte (4 * k + 1)).toNat_lt
  have h2 := (b.byte (4 * k + 2)).toNat_lt
  have h3 := (b.byte (4 * k + 3)).toNat_lt
  rw [word, UInt32.toNat_ofNat_of_lt' (show _ < 2 ^ 32 by omega)]
  omega

theorem byte_setWord (b : Block n) (k : Nat) (w : UInt32) {p : Nat} (hp : p < n) :
    (b.setWord k w).byte p = if p / 4 = k then digit w.toNat (p % 4) else b.byte p := by
  simp only [byte_of_lt _ hp, setWord]

theorem word_setWord (b : Block n) {k i : Nat} (w : UInt32) (hi : 4 * i + 3 < n) :
    (b.setWord k w).word i = if i = k then w else b.word i := by
  by_cases he : i = k
  · subst i
    rw [if_pos rfl]
    refine word_of_digits fun j hj => ?_
    rw [byte_setWord b k w (by omega), if_pos (by omega)]
    congr 1
    omega
  · rw [if_neg he]
    refine word_congr fun j hj => ?_
    rw [byte_setWord b k w (by omega), if_neg (by omega)]

end Block

end CseLabs
