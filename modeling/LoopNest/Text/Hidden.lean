import LoopNest.Text.Mark
import LoopNest.Text.Unassigned

/-! A character that cannot be told from its picture: one with no picture, one that looks like a
blank, or one that changes the picture of the character before it. -/

namespace LoopNest.Text

def controlRanges : List (Nat × Nat) := [(0x0, 0x1F), (0x7F, 0x9F)]

/-- Characters that steer the layout of the text around them. -/
def formatRanges : List (Nat × Nat) := [
    (0xAD, 0xAD), (0x600, 0x605), (0x61C, 0x61C), (0x6DD, 0x6DD), (0x70F, 0x70F), (0x890, 0x891),
    (0x8E2, 0x8E2), (0x180E, 0x180E), (0x200B, 0x200F), (0x202A, 0x202E), (0x2060, 0x2064),
    (0x2066, 0x206F), (0xFEFF, 0xFEFF), (0xFFF9, 0xFFFB), (0x110BD, 0x110BD), (0x110CD, 0x110CD),
    (0x13430, 0x1343F), (0x1BCA0, 0x1BCA3), (0x1D173, 0x1D17A), (0xE0001, 0xE0001),
    (0xE0020, 0xE007F)
  ]

/-- Ends of lines and of paragraphs, and blanks other than the usual one. -/
def separatorRanges : List (Nat × Nat) := [
    (0xA0, 0xA0), (0x1680, 0x1680), (0x2000, 0x200A), (0x2028, 0x2029), (0x202F, 0x202F),
    (0x205F, 0x205F), (0x3000, 0x3000)
  ]

def privateRanges : List (Nat × Nat) := [(0xE000, 0xF8FF), (0xF0000, 0xFFFFD), (0x100000, 0x10FFFD)]

/-- Letters that stand for the absence of a letter. -/
def fillerRanges : List (Nat × Nat) := [(0x115F, 0x1160), (0x3164, 0x3164), (0xFFA0, 0xFFA0)]

def hiddenRanges : List (Nat × Nat) :=
  controlRanges ++ formatRanges ++ separatorRanges ++ privateRanges ++ fillerRanges ++ markRanges ++
    unassignedRanges

def isHidden (c : Char) : Bool :=
  hiddenRanges.any fun (first, last) => first ≤ c.toNat && c.toNat ≤ last

end LoopNest.Text
