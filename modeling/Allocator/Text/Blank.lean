/-! Blank characters: the code points with the White_Space property of the Unicode
standard (version 17.0). Trimming and splitting trace lines use this class. -/
namespace Allocator

namespace Text

/-- The White_Space code points as inclusive ranges in ascending order. -/
def blankRanges : List (Nat × Nat) := [
  (0x9, 0xD), (0x20, 0x20), (0x85, 0x85), (0xA0, 0xA0), (0x1680, 0x1680), (0x2000, 0x200A),
  (0x2028, 0x2029), (0x202F, 0x202F), (0x205F, 0x205F), (0x3000, 0x3000)]

/-- Whether a character is blank. -/
def isBlank (c : Char) : Bool :=
  blankRanges.any fun (lo, hi) => lo ≤ c.toNat ∧ c.toNat ≤ hi

end Text

end Allocator
