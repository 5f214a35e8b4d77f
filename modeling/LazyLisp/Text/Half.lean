/-!
Halves of pairs. A character beyond the first plane is spelled by two units of sixteen bits; a text
from outside may hold one of them without the other. No character is half a pair, so in the texts of
the library another character stands for it, one that is used for nothing else.
-/

namespace LazyLisp.Text

def isHighUnit (n : Nat) : Bool := 0xD800 ≤ n && n < 0xDC00

def isLowUnit (n : Nat) : Bool := 0xDC00 ≤ n && n < 0xE000

def isHalf (n : Nat) : Bool := isHighUnit n || isLowUnit n

/-- The characters that stand for halves of pairs. They are for private use, and as many as there
are halves. Which ones they are makes no difference as long as no text uses them otherwise. -/
structure Halves where
  char : Nat → Char
  half? : Char → Option Nat
  half?_char : ∀ n, isHalf n = true → half? (char n) = some n
  private_of_half? : ∀ c n, half? c = some n → 0xF0000 ≤ c.toNat

namespace Halves

def count : Nat := 0x800

/-- The first of the last characters for private use. -/
def lastStart : Nat := 0x10F800

theorem toNat_ofNat {n : Nat} (valid : n.isValidChar) : (Char.ofNat n).toNat = n := by
  rw [Char.ofNat, dif_pos valid]
  rfl

/-- The last characters for private use, in the order of the halves. -/
def last : Halves where
  char n := Char.ofNat (lastStart + (n - 0xD800) % count)
  half? c := if lastStart ≤ c.toNat then some (c.toNat - lastStart + 0xD800) else none
  half?_char n half := by
    simp only [isHalf, isHighUnit, isLowUnit, Bool.or_eq_true, Bool.and_eq_true,
      decide_eq_true_eq] at half
    have place : n - 0xD800 < count := by
      unfold count
      omega
    have valid : (lastStart + (n - 0xD800)).isValidChar := by
      unfold lastStart
      unfold count at place
      exact .inr ⟨by omega, by omega⟩
    rw [Nat.mod_eq_of_lt place, toNat_ofNat valid, if_pos (Nat.le_add_right _ _),
      Nat.add_sub_cancel_left, Nat.sub_add_cancel (by omega)]
  private_of_half? c n half := by
    split at half
    · next above => exact Nat.le_trans (by unfold lastStart; omega) above
    · cases half

end Halves

end LazyLisp.Text
