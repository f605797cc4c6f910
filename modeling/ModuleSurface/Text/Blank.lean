/-!
# Texts and white space

A source is handled as the list of its characters, so every index counts characters.
`isBlank` is the white space of the whole library: the ASCII controls that move the cursor, the
four separators before the space, the space itself, the next-line control and the space
characters of Unicode.  The zero-width space and the byte order mark are not among them.
-/

namespace ModuleSurface

/-- A source text, one character after the other. -/
abbrev Text := List Char

namespace Text

/-- Is `n` in one of the closed ranges? -/
def inRanges (ranges : List (Nat × Nat)) (n : Nat) : Bool :=
  ranges.any fun r => decide (r.1 ≤ n) && decide (n ≤ r.2)

/-- The code points that count as white space, as closed ranges in increasing order. -/
def blankRanges : List (Nat × Nat) :=
  [(0x09, 0x0D), (0x1C, 0x20), (0x85, 0x85), (0xA0, 0xA0), (0x1680, 0x1680), (0x2000, 0x200A),
   (0x2028, 0x2029), (0x202F, 0x202F), (0x205F, 0x205F), (0x3000, 0x3000)]

/-- White space. -/
def isBlank (c : Char) : Bool :=
  inRanges blankRanges c.toNat

example : (blankRanges.map fun r => r.2 - r.1 + 1).sum = 29 := by decide

/-- What core calls white space is blank. -/
theorem isBlank_of_isWhitespace {c : Char} (h : c.isWhitespace = true) : isBlank c = true := by
  simp only [Char.isWhitespace, Bool.or_eq_true, decide_eq_true_eq] at h
  rcases h with ((h | h) | h) | h <;> subst h <;> decide

end Text

end ModuleSurface
