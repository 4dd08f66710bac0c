/-!
# Blank characters

The characters that stand for room on a page: the blank, the tab, the characters that end a line,
and the blanks of other widths. They are listed as ranges of code points, in ascending order.
-/

namespace ReliableStream.Text

/-- The code points of the blank characters: the first and the last of each range. -/
def blanks : List (Nat × Nat) :=
  [(0x9, 0xd), (0x20, 0x20), (0x85, 0x85), (0xa0, 0xa0), (0x1680, 0x1680), (0x2000, 0x200a),
    (0x2028, 0x2029), (0x202f, 0x202f), (0x205f, 0x205f), (0x3000, 0x3000)]

/-- Whether a character is blank. -/
def isBlank (c : Char) : Bool :=
  blanks.any fun range ↦ range.1 ≤ c.toNat && c.toNat ≤ range.2

/-- The blanks of the first 128 characters are blank here, too. -/
theorem isBlank_of_isWhitespace {c : Char} (h : c.isWhitespace = true) : isBlank c = true := by
  simp only [Char.isWhitespace, Bool.or_eq_true, decide_eq_true_eq] at h
  rcases h with ((rfl | rfl) | rfl) | rfl <;> rfl

end ReliableStream.Text
