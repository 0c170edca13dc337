/-!
# Half pairs

A character beyond the first sixteen bits is written as a pair of units of sixteen bits. One
unit of a pair alone is no character, but a JSON text may spell it out. It is kept as the
private character that lies a fixed distance above it, so that messages can still tell
which unit it was.
-/

namespace Whittle.Text

/-- How far above a lone unit its character lies. -/
def halfOffset : Nat := 0x100000

/-- Whether a unit is one half of a pair. -/
def isHalf (unit : Nat) : Bool := 0xd800 ≤ unit && unit < 0xe000

/-- The character that a lone unit is kept as. -/
def half (unit : Nat) : Char := Char.ofNat (halfOffset + unit)

/-- The lone unit that a character is kept for. -/
def halfUnit? (c : Char) : Option Nat :=
  if halfOffset ≤ c.toNat && isHalf (c.toNat - halfOffset) then some (c.toNat - halfOffset)
  else none

/-- The character lies where it should. -/
theorem toNat_half {unit : Nat} (h : isHalf unit = true) :
    (half unit).toNat = halfOffset + unit := by
  simp only [isHalf, Bool.and_eq_true, decide_eq_true_eq] at h
  have valid : (halfOffset + unit).isValidChar := by
    right
    simp only [halfOffset]
    omega
  rw [half, Char.ofNat, dif_pos valid]
  rfl

/-- A lone unit is read back from its character. -/
theorem halfUnit?_half {unit : Nat} (h : isHalf unit = true) :
    halfUnit? (half unit) = some unit := by
  simp [halfUnit?, toNat_half h, h]

end Whittle.Text
